import Resonantia.Io.RawSampleSpool
import Resonantia.Pipeline.F0Window

/-!
# Quiet core planning

`QuietCorePlanner` cuts a clip into consecutive cores. For each target it looks for the frame with
the least energy within the query distance and cuts there; a target whose query window is empty, or
whose quietest frame does not move the cut forward, is skipped. The last core ends with the clip.

The energy of a frame is a parameter: planning only compares energies.

## Main definitions

* `Pipeline.FrameEnergy`: the energies of frames and their strict comparison.
* `Pipeline.QuietCorePlanner`: the state of a planner, with a chunk that is not empty.
* `Pipeline.QuietCorePlanner.next`: the next core, or none at the end of the clip.

## Main results

* `Pipeline.QuietCorePlanner.next_spec`: consecutive cores start where the last one ended, are not
  empty and stay inside the clip.
-/

namespace Resonantia.Pipeline

open Slices Io

/-- The energy of a frame of samples, and the comparison `energy < best_energy`. -/
class FrameEnergy (α : Type) where
  Energy : Type
  /-- The energy of the samples of one frame. -/
  frameEnergy : List α → Energy
  /-- `std::numeric_limits<float>::max()`. -/
  maximum : Energy
  less : Energy → Energy → Bool

/-- The sum of absolute values. -/
instance : FrameEnergy ℤ where
  Energy := ℕ
  frameEnergy frame := (frame.map Int.natAbs).sum
  maximum := 2 ^ 128
  less a b := decide (a < b)

/-- The state of a `QuietCorePlanner`. -/
structure QuietCorePlanner where
  samples : ℕ
  chunk : ℕ
  query : ℕ
  hardCore : ℕ
  previous : ℕ
  target : ℕ
  chunk_pos : 0 < chunk

namespace QuietCorePlanner

/-- The constructor. -/
def create (samples chunk query hardCore : ℕ) (chunk_pos : 0 < chunk) : QuietCorePlanner :=
  { samples, chunk, query, hardCore, previous := 0, target := chunk, chunk_pos }

/-- `low_frame`: the first frame of the query window of the target. -/
def lowFrame (p : QuietCorePlanner) : ℕ :=
  let low := if p.target > p.query then max 1 (p.target - p.query) else 1
  low / kPitchHop

/-- `high_frame`: the last frame of the query window of the target. -/
def highFrame (p : QuietCorePlanner) : ℕ :=
  let high := min (p.samples - 1) (u64 (p.target + p.query))
  min (p.samples / kPitchHop - 1) (high / kPitchHop)

variable {α : Type} [Sample α] [FrameEnergy α]

/-- The scan of a query window: the first frame of the least energy. -/
def bestFrame (audio : List α) (lowFrame frameCount : ℕ) : ℕ :=
  ((List.range frameCount).foldl
    (fun (best : ℕ × FrameEnergy.Energy α) frame =>
      let base := frame * kPitchHop
      let energy := FrameEnergy.frameEnergy (slice audio base (base + kPitchHop))
      if FrameEnergy.less energy best.2 then (lowFrame + frame, energy) else best)
    (lowFrame, FrameEnergy.maximum)).1

/-- The loop of `next` over targets, and the last core. -/
def advance (source : RawFloatSpool α) (p : QuietCorePlanner) :
    Except String ((ℕ × ℕ) × QuietCorePlanner) :=
  if _htarget : p.target < p.samples then
    if p.samples / kPitchHop = 0 then .error "audio is too short for quiet planning"
    else
      match _hnext : checkedAdd p.target p.chunk with
      | none => .error "quiet-planner target overflow"
      | some nextTarget =>
        let p' := { p with target := nextTarget }
        if p.lowFrame > p.highFrame then p'.advance source
        else
          let frameCount := p.highFrame - p.lowFrame + 1
          match narrowSize (frameCount * kPitchHop) with
          | none => .error "quiet-planner query exceeds host size"
          | some querySize =>
            match source.read (p.lowFrame * kPitchHop) querySize with
            | none => .error "quiet-planner source read failed"
            | some audio =>
              let candidate := bestFrame audio p.lowFrame frameCount * kPitchHop
              if candidate ≤ p.previous ∨ candidate ≥ p.samples then p'.advance source
              else if candidate - p.previous > p.hardCore then
                .error "quiet planner exceeded the core hard bound"
              else .ok ((p.previous, candidate), { p' with previous := candidate })
  else if p.samples - p.previous > p.hardCore then
    .error "quiet planner final core exceeded the hard bound"
  else .ok ((p.previous, p.samples), { p with previous := p.samples })
termination_by p.samples - p.target
decreasing_by
  all_goals
    have hchunk := p.chunk_pos
    have hadd := eq_add_of_checkedAdd _hnext
    omega

/-- `next`: the next core with the planner behind it, `none` at the end of the clip. -/
def next (source : RawFloatSpool α) (p : QuietCorePlanner) :
    Except String (Option ((ℕ × ℕ) × QuietCorePlanner)) :=
  if p.previous ≥ p.samples then .ok none else (p.advance source).map some

/-- A core starts where the last one ended, is not empty and stays inside the clip. -/
theorem advance_spec {source : RawFloatSpool α} {p p' : QuietCorePlanner} {start stop : ℕ}
    (hprevious : p.previous < p.samples) (h : p.advance source = .ok ((start, stop), p')) :
    start = p.previous ∧ p'.previous = stop ∧ start < stop ∧ stop ≤ p.samples ∧
      p'.samples = p.samples := by
  induction hd : p.samples - p.target using Nat.strongRecOn generalizing p with
  | ind d ih =>
    rw [advance] at h
    split at h
    · split at h
      · cases h
      split at h
      · cases h
      · rename_i nextTarget hnext
        have hlater := eq_add_of_checkedAdd hnext
        have hchunk := p.chunk_pos
        have hskip := fun hrec => ih (p.samples - nextTarget) (by omega) (p := { p with
          target := nextTarget }) hprevious hrec rfl
        split at h
        · exact hskip h
        · dsimp only at h
          split at h
          · cases h
          split at h
          · cases h
          split at h
          · exact hskip h
          split at h
          · cases h
          · cases h
            simp only [true_and, and_true]
            omega
    · split at h
      · cases h
      · cases h
        exact ⟨rfl, rfl, hprevious, Nat.le_refl _, rfl⟩

/-- A core starts where the last one ended, is not empty and stays inside the clip. -/
theorem next_spec {source : RawFloatSpool α} {p p' : QuietCorePlanner} {start stop : ℕ}
    (h : p.next source = .ok (some ((start, stop), p'))) :
    p.previous < p.samples ∧ start = p.previous ∧ p'.previous = stop ∧ start < stop ∧
      stop ≤ p.samples ∧ p'.samples = p.samples := by
  rw [next] at h
  split at h
  · cases h
  · rename_i hprevious
    rcases hcore : p.advance source with message | core
    · rw [hcore] at h
      cases h
    · rw [hcore] at h
      cases h
      exact ⟨by omega, advance_spec (by omega) hcore⟩

end QuietCorePlanner

end Resonantia.Pipeline
