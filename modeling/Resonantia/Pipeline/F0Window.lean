import Mathlib.Order.Lattice
import Mathlib.Tactic.SplitIfs
import Resonantia.Pipeline.Checked

/-!
# Windows of raw F0 extraction

Raw F0 is extracted window by window on the lattice of 160 samples a frame. A window computes a core
of at most 800 frames; its input extends the core by the context of the extractor on both sides,
except at the true ends of the clip. `plan_f0_window` lays out one window; here it is shown to
succeed for every first frame of every clip, and its layout is stated once for all
(`planF0Window_spec`).

## Main definitions

* `Pipeline.F0WindowPlan`, `Pipeline.planF0Window`.

## Main results

* `Pipeline.F0WindowPlan.Valid`, `Pipeline.planF0Window_spec`: the layout of a window.
* `Pipeline.planF0Window_isSome`: every frame of the clip has a window.
-/

namespace Resonantia.Pipeline

/-- `kPitchHop`: the samples of a frame. -/
def kPitchHop : ℕ := 160

/-- `kF0CoreSamples`. -/
def kF0CoreSamples : ℕ := 8 * 16000

/-- `kRmvpeContextSamples`. -/
def kRmvpeContextSamples : ℕ := 4 * 16000

/-- `kFcpeContextSamples`. -/
def kFcpeContextSamples : ℕ := 2 * 16000

/-- `F0Method`, as far as the bounded profile accepts it. -/
inductive F0Method
  | rmvpe
  | fcpe
deriving DecidableEq, Repr

/-- `f0_context_samples`. -/
def f0ContextSamples : F0Method → ℕ
  | .fcpe => kFcpeContextSamples
  | .rmvpe => kRmvpeContextSamples

/-- `F0WindowPlan`. -/
structure F0WindowPlan where
  firstFrame : ℕ
  endFrame : ℕ
  inputStart : ℕ
  inputSamples : ℕ
  cropFirstFrame : ℕ
  cropFrameCount : ℕ
  expectedLocalFrames : ℕ
deriving DecidableEq, Repr

/-- The frames of a clip of `totalSamples` samples. -/
def totalFrames (totalSamples : ℕ) : ℕ := totalSamples / kPitchHop + 1

/-- `frame_count`: the core has at most `frames_per_core` frames. -/
def coreFrameCount (totalFrames firstFrame : ℕ) : ℕ :=
  min (kF0CoreSamples / kPitchHop) (totalFrames - firstFrame)

/-- `core_end`: the last core runs to the end of the clip. -/
def coreEnd (totalSamples endFrame : ℕ) : ℕ :=
  if endFrame < totalFrames totalSamples then endFrame * kPitchHop else totalSamples

/-- `input_start`. -/
def windowStart (contextSamples coreStart : ℕ) : ℕ :=
  if coreStart > contextSamples then coreStart - contextSamples else 0

/-- `input_end`. -/
def windowEnd (totalSamples contextSamples coreEnd : ℕ) : ℕ :=
  coreEnd + min contextSamples (totalSamples - coreEnd)

/-- `plan_f0_window`. -/
def planF0Window (totalSamples firstFrame contextSamples : ℕ) : Option F0WindowPlan :=
  if totalSamples = 0 ∨ contextSamples % kPitchHop ≠ 0 then none
  else if firstFrame ≥ totalFrames totalSamples then none
  else if firstFrame > uint64Max / kPitchHop then none
  else
    let frameCount := coreFrameCount (totalFrames totalSamples) firstFrame
    let endFrame := firstFrame + frameCount
    let inputStart := windowStart contextSamples (firstFrame * kPitchHop)
    let inputEnd := windowEnd totalSamples contextSamples (coreEnd totalSamples endFrame)
    if inputStart % kPitchHop ≠ 0 ∨ inputEnd ≤ inputStart then none
    else
      let plan : F0WindowPlan :=
        { firstFrame, endFrame, inputStart
          inputSamples := inputEnd - inputStart
          cropFirstFrame := firstFrame - inputStart / kPitchHop
          cropFrameCount := frameCount
          expectedLocalFrames := (inputEnd - inputStart) / kPitchHop + 1 }
      if plan.cropFirstFrame > plan.expectedLocalFrames ∨
          plan.cropFrameCount > plan.expectedLocalFrames - plan.cropFirstFrame ∨
          plan.inputSamples > u64 (kF0CoreSamples + u64 (2 * contextSamples)) then none
      else some plan

/-- The layout of the window of `firstFrame` in a clip of `totalSamples` samples: the core is a
non-empty range of frames, the input lies inside the clip and contains the context of every frame of
the core or ends at an end of the clip. -/
structure F0WindowPlan.Valid (plan : F0WindowPlan) (totalSamples firstFrame contextSamples : ℕ) :
    Prop where
  firstFrame_eq : plan.firstFrame = firstFrame
  endFrame_eq : plan.endFrame = min (firstFrame + 800) (totalFrames totalSamples)
  cropFrameCount_eq : plan.cropFrameCount = plan.endFrame - firstFrame
  firstFrame_lt : firstFrame < plan.endFrame
  inputStart_dvd : kPitchHop ∣ plan.inputStart
  inputStart_add_lt : plan.inputStart < plan.inputStart + plan.inputSamples
  input_le : plan.inputStart + plan.inputSamples ≤ totalSamples
  left_context : plan.inputStart = 0 ∨ plan.inputStart + contextSamples ≤ kPitchHop * firstFrame
  right_context : plan.inputStart + plan.inputSamples = totalSamples ∨
    kPitchHop * (plan.endFrame - 1) + contextSamples ≤ plan.inputStart + plan.inputSamples
  cropFirstFrame_eq : plan.cropFirstFrame = firstFrame - plan.inputStart / kPitchHop
  inputStart_le : plan.inputStart ≤ kPitchHop * firstFrame
  expectedLocalFrames_eq : plan.expectedLocalFrames = plan.inputSamples / kPitchHop + 1
  crop_le : plan.cropFirstFrame + plan.cropFrameCount ≤ plan.expectedLocalFrames
  inputSamples_le : plan.inputSamples ≤ u64 (kF0CoreSamples + u64 (2 * contextSamples))

/-- The core of a window that starts inside the clip. -/
theorem coreFrameCount_spec {totalFrames firstFrame : ℕ} (h : firstFrame < totalFrames) :
    0 < coreFrameCount totalFrames firstFrame ∧
      firstFrame + coreFrameCount totalFrames firstFrame = min (firstFrame + 800) totalFrames := by
  simp only [coreFrameCount, kF0CoreSamples, kPitchHop]
  omega

/-- The end of the core lies inside the clip and behind its last frame. -/
theorem coreEnd_spec {totalSamples endFrame : ℕ} (h : endFrame ≤ totalFrames totalSamples) :
    coreEnd totalSamples endFrame ≤ totalSamples ∧
      (coreEnd totalSamples endFrame = totalSamples ∧ totalSamples < 160 * endFrame ∨
        coreEnd totalSamples endFrame = 160 * endFrame) := by
  rw [coreEnd]
  by_cases hlast : endFrame < totalFrames totalSamples
  · rw [if_pos hlast]
    simp only [totalFrames, kPitchHop] at *
    omega
  · rw [if_neg hlast]
    simp only [totalFrames, kPitchHop, true_and] at *
    omega

/-- The input starts one context before the core or at the start of the clip. -/
theorem windowStart_spec (contextSamples coreStart : ℕ) :
    windowStart contextSamples coreStart + contextSamples = coreStart ∨
      windowStart contextSamples coreStart = 0 ∧ coreStart ≤ contextSamples := by
  rw [windowStart]
  split <;> omega

/-- The input ends one context behind the core or at the end of the clip. -/
theorem windowEnd_spec {totalSamples coreEnd : ℕ} (contextSamples : ℕ)
    (h : coreEnd ≤ totalSamples) :
    windowEnd totalSamples contextSamples coreEnd = coreEnd + contextSamples ∧
        coreEnd + contextSamples ≤ totalSamples ∨
      windowEnd totalSamples contextSamples coreEnd = totalSamples ∧
        totalSamples ≤ coreEnd + contextSamples := by
  rw [windowEnd]
  omega

/-- A returned plan has the layout of a window. -/
theorem planF0Window_spec {totalSamples firstFrame contextSamples : ℕ} {plan : F0WindowPlan}
    (h : planF0Window totalSamples firstFrame contextSamples = some plan) :
    plan.Valid totalSamples firstFrame contextSamples := by
  rw [planF0Window] at h
  dsimp only at h
  split_ifs at h with _ hfirst _ hinput hcrop
  have hframe := coreFrameCount_spec (Nat.lt_of_not_le hfirst)
  have hcore := coreEnd_spec (hframe.2.trans_le (min_le_right _ (totalFrames totalSamples)))
  have hstart := windowStart_spec contextSamples (firstFrame * kPitchHop)
  have hend := windowEnd_spec contextSamples hcore.1
  cases h
  simp only [kPitchHop, not_or, not_lt, not_le, ne_eq, not_not] at *
  generalize coreFrameCount (totalFrames totalSamples) firstFrame = count at *
  generalize coreEnd totalSamples (firstFrame + count) = core at *
  generalize windowStart contextSamples (firstFrame * 160) = start at *
  generalize windowEnd totalSamples contextSamples core = stop at *
  constructor <;> simp only [kPitchHop] <;> omega

/-- Every frame of the clip has a window. -/
theorem planF0Window_isSome {totalSamples firstFrame contextSamples : ℕ}
    (htotal : totalSamples < 2 ^ 63) (hpos : 0 < totalSamples) (hcontext : 0 < contextSamples)
    (hdvd : kPitchHop ∣ contextSamples) (hbound : kF0CoreSamples + 2 * contextSamples < 2 ^ 31)
    (hfirst : firstFrame < totalFrames totalSamples) :
    ∃ plan, planF0Window totalSamples firstFrame contextSamples = some plan := by
  have hu : u64 (kF0CoreSamples + u64 (2 * contextSamples)) =
      kF0CoreSamples + 2 * contextSamples := by
    rw [u64_of_lt (n := 2 * contextSamples) (by omega), u64_of_lt (by omega)]
  have hframe := coreFrameCount_spec hfirst
  have hcore := coreEnd_spec (hframe.2.trans_le (min_le_right _ (totalFrames totalSamples)))
  have hstart := windowStart_spec contextSamples (firstFrame * kPitchHop)
  have hend := windowEnd_spec contextSamples hcore.1
  have hlimit : ¬ firstFrame > uint64Max / kPitchHop := by
    simp only [totalFrames, kPitchHop, uint64Max] at *
    omega
  have hframes : totalFrames totalSamples = totalSamples / 160 + 1 := rfl
  rw [planF0Window]
  dsimp only
  generalize coreFrameCount (totalFrames totalSamples) firstFrame = count at *
  generalize coreEnd totalSamples (firstFrame + count) = core at *
  generalize windowStart contextSamples (firstFrame * kPitchHop) = start at *
  generalize windowEnd totalSamples contextSamples core = stop at *
  rw [if_neg ?_, if_neg (by omega), if_neg hlimit, if_neg ?_, if_neg ?_]
  · exact ⟨_, rfl⟩
  all_goals
    simp only [hu, kPitchHop, kF0CoreSamples] at *
    omega

end Resonantia.Pipeline
