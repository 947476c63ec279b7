import Resonantia.Pipeline.QuietBound

/-!
# The cut points of the legacy pipeline

`convert_long` computes the energies of all frames of a clip and then all cut points in one loop
over the targets. The bounded planner reads one query window at a time and returns one core a call.
Here both are shown to cut in the same places: whenever the planner runs through without an error,
its cores are the intervals between the cut points of `convert_long`.

A query distance is at least one frame in both pipelines, so that the query window of a target
inside the clip always holds a whole frame. For this reason a target that the planner skips because
its window is empty does not occur in a clip that has frames.

## Main definitions

* `Pipeline.frameEnergies`, `Pipeline.quietestFrame`, `Pipeline.cutLoop`: the energies, the search
  around one target and the loop over targets of `convert_long`.
* `Pipeline.convertLongBounds`: the cut points of `convert_long`.

## Main results

* `Pipeline.QuietCorePlanner.Serves.bestFrame_eq`: the scans of one query window agree.
* `Pipeline.QuietCorePlanner.Serves.plan_of_target`: the plan unfolded by one target.
* `Pipeline.plan_eq_convertLongBounds`: the cores of the planner are the legacy ones.
-/

namespace Resonantia.Pipeline

open Slices Io

/-- `std::max(hop, size)`: the chunk and query sizes of both pipelines are at least a frame. -/
def atLeastHop (size : Int32) : ℕ := (max (kPitchHop : ℤ) size.toInt).toNat

theorem kPitchHop_le_atLeastHop (size : Int32) : kPitchHop ≤ atLeastHop size := by
  rw [atLeastHop]
  omega

theorem atLeastHop_lt (size : Int32) : atLeastHop size < 2 ^ 31 := by
  have hlt := size.toInt_lt
  simp only [atLeastHop, kPitchHop]
  omega

theorem atLeastHop_pos (size : Int32) : 0 < atLeastHop size :=
  lt_of_lt_of_le (by decide) (kPitchHop_le_atLeastHop size)

/-! ### The cut points of `convert_long` -/

section Legacy

variable {α : Type} [FrameEnergy α]

/-- `energy`: the energies of the whole frames of a clip. -/
def frameEnergies (audio16k : List α) : List (FrameEnergy.Energy α) :=
  (List.range (audio16k.length / kPitchHop)).map fun f =>
    FrameEnergy.frameEnergy (slice audio16k (f * kPitchHop) (f * kPitchHop + kPitchHop))

/-- The first frame of the least energy within the query distance of a target, `best`. -/
def quietestFrame (audio16k : List α) (query target : ℕ) : ℕ :=
  let energy := frameEnergies audio16k
  let n : ℤ := audio16k.length
  let lo : ℤ := max 1 (target - query)
  let hi : ℤ := min (n - 1) (target + query)
  let lof := (lo / kPitchHop).toNat
  let hif : ℤ := min (n / kPitchHop - 1) (hi / kPitchHop)
  ((List.range' lof (hif + 1 - lof).toNat).foldl
    (fun (best : ℕ × FrameEnergy.Energy α) f =>
      let energy := energy.getD f FrameEnergy.maximum
      if FrameEnergy.less energy best.2 then (f, energy) else best)
    (lof, FrameEnergy.maximum)).1

/-- The loop over targets: `bounds` holds the cut points so far, the last of them at its end. -/
def cutLoop (audio16k : List α) (chunk query : ℕ) (hchunk : 0 < chunk) (target : ℕ)
    (bounds : List ℕ) : List ℕ :=
  if target < audio16k.length then
    let pos := quietestFrame audio16k query target * kPitchHop
    cutLoop audio16k chunk query hchunk (target + chunk)
      (if pos > bounds.getLastD 0 ∧ pos < audio16k.length then bounds ++ [pos] else bounds)
  else bounds
termination_by audio16k.length - target

/-- The cut points of `convert_long`, from the start of the clip to its end. -/
def convertLongBounds (audio16k : List α) (maxChunk chunkQuery : Int32) :
    Except String (List ℕ) :=
  if audio16k.length < 2 then .error "audio too short"
  else
    let chunk := atLeastHop maxChunk
    let query := atLeastHop chunkQuery
    .ok (cutLoop audio16k chunk query (atLeastHop_pos maxChunk) chunk [0] ++ [audio16k.length])

theorem getD_frameEnergies {audio16k : List α} {f : ℕ} (hf : f < audio16k.length / kPitchHop) :
    (frameEnergies audio16k).getD f FrameEnergy.maximum =
      FrameEnergy.frameEnergy (slice audio16k (f * kPitchHop) (f * kPitchHop + kPitchHop)) := by
  rw [frameEnergies, List.getD_eq_getElem?_getD, List.getElem?_map, List.getElem?_range hf]
  rfl

end Legacy

/-! ### One query window -/

namespace QuietCorePlanner

/-- A planner of a clip: the sizes of both pipelines, and a target ahead. -/
structure Serves (p : QuietCorePlanner) (samples : ℕ) : Prop where
  samples_eq : p.samples = samples
  query_ge : kPitchHop ≤ p.query
  query_lt : p.query < 2 ^ 31
  chunk_lt : p.chunk < 2 ^ 31
  target_pos : 0 < p.target

variable {p : QuietCorePlanner} {samples : ℕ}

/-- The window of a target inside a clip with frames holds a frame. -/
theorem Serves.lowFrame_le (h : p.Serves samples) (htarget : p.target < samples)
    (hsamples : samples ≤ 2 ^ 61) :
    p.lowFrame ≤ p.highFrame := by
  have hquery := h.query_ge
  have hlt := h.query_lt
  have hpos := h.target_pos
  rw [lowFrame, highFrame, h.samples_eq, u64_of_lt (by omega)]
  simp only [kPitchHop] at *
  split <;> omega

variable {α : Type} [Sample α] [FrameEnergy α]

/-- The scan of the window that the planner reads finds the frame that `convert_long` finds in the
whole clip. -/
theorem Serves.bestFrame_eq {source : RawFloatSpool α} (h : p.Serves source.samples.length)
    (htarget : p.target < source.samples.length)
    (hframes : source.samples.length / kPitchHop ≠ 0) :
    bestFrame (slice source.samples (p.lowFrame * kPitchHop)
        (p.lowFrame * kPitchHop + (p.highFrame - p.lowFrame + 1) * kPitchHop))
        p.lowFrame (p.highFrame - p.lowFrame + 1) =
      quietestFrame source.samples p.query p.target := by
  have hlen := source.length_le
  have hle := h.lowFrame_le htarget hlen
  have hquery := h.query_ge
  have hquery_lt := h.query_lt
  have hpos := h.target_pos
  have hhigh : p.highFrame =
      min (source.samples.length / kPitchHop - 1)
        (min (source.samples.length - 1) (p.target + p.query) / kPitchHop) := by
    rw [highFrame, h.samples_eq, u64_of_lt (by omega)]
  have hlof : (max 1 ((p.target : ℤ) - p.query) / (kPitchHop : ℤ)).toNat = p.lowFrame := by
    rw [lowFrame]
    simp only [kPitchHop]
    split <;> omega
  have hcount : (min ((source.samples.length : ℤ) / kPitchHop - 1)
      (min ((source.samples.length : ℤ) - 1) (p.target + p.query) / kPitchHop) + 1 -
        p.lowFrame).toNat = p.highFrame - p.lowFrame + 1 := by
    rw [hhigh] at hle ⊢
    simp only [kPitchHop] at *
    omega
  rw [bestFrame, quietestFrame]
  dsimp only
  rw [hlof, hcount, List.range'_eq_map_range, List.foldl_map]
  refine congrArg Prod.fst (List.foldl_ext _ _ _ fun best frame hframe => ?_)
  have hframe := List.mem_range.1 hframe
  have hinside : p.lowFrame + frame < source.samples.length / kPitchHop := by omega
  rw [getD_frameEnergies hinside, slice_slice _ _ _ (by simp only [kPitchHop]; omega),
    ← Nat.add_assoc, ← Nat.add_mul]

/-- The next core of a planner in front of the end of the clip, and the cores behind it. -/
theorem plan_of_lt {source : RawFloatSpool α} (hprevious : p.previous < p.samples) :
    p.plan source =
      match p.advance source with
      | .error message => .error message
      | .ok (core, p') => (p'.plan source).map (core :: ·) := by
  have hnext : p.next source = (p.advance source).map some := if_neg (by omega)
  rw [plan.eq_def]
  split
  · rename_i message hmessage
    rw [hnext] at hmessage
    rcases hadvance : p.advance source with other | ⟨core, p'⟩ <;> rw [hadvance] at hmessage
    · exact congrArg Except.error (Except.error.inj hmessage).symm
    · cases hmessage
  · rename_i hnone
    rw [hnext] at hnone
    rcases hadvance : p.advance source with other | ⟨core, p'⟩ <;> rw [hadvance] at hnone <;>
      cases hnone
  · rename_i core p' hsome
    rw [hnext] at hsome
    rcases hadvance : p.advance source with other | ⟨core', p''⟩ <;> rw [hadvance] at hsome
    · cases hsome
    · cases hsome
      rfl

/-- A planner at the end of the clip has no more cores. -/
theorem plan_of_le {source : RawFloatSpool α} (hprevious : p.samples ≤ p.previous) :
    p.plan source = .ok [] := by
  have hnext : p.next source = .ok none := if_pos hprevious
  rw [plan.eq_def]
  split
  · rename_i message hmessage
    cases hnext.symm.trans hmessage
  · rfl
  · rename_i core p' hsome
    cases hnext.symm.trans hsome

/-- The next core unfolded by one target. -/
theorem Serves.advance_of_target {source : RawFloatSpool α} (h : p.Serves source.samples.length)
    (htarget : p.target < source.samples.length) :
    p.advance source =
      let pos := quietestFrame source.samples p.query p.target * kPitchHop
      let p' := { p with target := p.target + p.chunk }
      if source.samples.length / kPitchHop = 0 then .error "audio is too short for quiet planning"
      else if pos ≤ p.previous ∨ pos ≥ source.samples.length then p'.advance source
      else if pos - p.previous > p.hardCore then
        .error "quiet planner exceeded the core hard bound"
      else .ok ((p.previous, pos), { p' with previous := pos }) := by
  have hlen := source.length_le
  have hchunk := h.chunk_lt
  have hsamples := h.samples_eq
  have hadd : checkedAdd p.target p.chunk = some (p.target + p.chunk) :=
    checkedAdd_of_lt (by omega)
  rw [advance.eq_def, dif_pos (by omega), hsamples]
  dsimp only
  by_cases hframes : source.samples.length / kPitchHop = 0
  · rw [if_pos hframes, if_pos hframes]
  · rw [if_neg hframes, if_neg hframes]
    split
    · rename_i hnone
      cases hadd.symm.trans hnone
    · rename_i nextTarget hnext
      obtain rfl := Option.some.inj (hadd.symm.trans hnext)
      have hle := h.lowFrame_le htarget hlen
      have hbest := h.bestFrame_eq htarget hframes
      have hhigh : p.highFrame ≤ source.samples.length / kPitchHop - 1 := by
        rw [highFrame, hsamples]
        exact min_le_left _ _
      have hread : p.lowFrame * kPitchHop + (p.highFrame - p.lowFrame + 1) * kPitchHop ≤
          source.samples.length := by
        simp only [kPitchHop] at *
        omega
      rw [if_neg (by omega), narrowSize_of_lt (by omega)]
      dsimp only
      rw [RawSampleSpool.read_of_le hread]
      dsimp only
      rw [hbest]

/-- The plan unfolded by one target: the cut point of `convert_long` ends a core, or the target is
skipped in both pipelines. -/
theorem Serves.plan_of_target {source : RawFloatSpool α} (h : p.Serves source.samples.length)
    (hprevious : p.previous < source.samples.length) (htarget : p.target < source.samples.length)
    {cores : List (ℕ × ℕ)} (hplan : p.plan source = .ok cores) :
    let pos := quietestFrame source.samples p.query p.target * kPitchHop
    let p' := { p with target := p.target + p.chunk }
    if pos > p.previous ∧ pos < source.samples.length then
      ∃ rest, cores = (p.previous, pos) :: rest ∧
        { p' with previous := pos }.plan source = .ok rest
    else p'.plan source = .ok cores := by
  have hsamples := h.samples_eq
  rw [plan_of_lt (by omega), h.advance_of_target htarget] at hplan
  dsimp only at hplan ⊢
  generalize quietestFrame source.samples p.query p.target * kPitchHop = pos at hplan ⊢
  split at hplan
  · cases hplan
  · rename_i core p' hadvance
    split_ifs at hadvance with hframes hskip hbound
    · rw [if_neg (by omega)]
      refine (plan_of_lt (hsamples ▸ hprevious)).trans ?_
      rw [hadvance]
      exact hplan
    · cases hadvance
      rw [if_pos (by omega)]
      rcases hrest : plan source { p with target := p.target + p.chunk, previous := pos } with
        message | rest
      · rw [hrest] at hplan
        cases hplan
      · rw [hrest] at hplan
        exact ⟨rest, (Except.ok.inj hplan).symm, rfl⟩

/-- The plan behind the last target: one core, up to the end of the clip. -/
theorem plan_of_last {source : RawFloatSpool α} (hprevious : p.previous < p.samples)
    (htarget : p.samples ≤ p.target) {cores : List (ℕ × ℕ)} (hplan : p.plan source = .ok cores) :
    cores = [(p.previous, p.samples)] := by
  have hadvance : p.advance source =
      if p.samples - p.previous > p.hardCore then
        .error "quiet planner final core exceeded the hard bound"
      else .ok ((p.previous, p.samples), { p with previous := p.samples }) := by
    rw [advance.eq_def, dif_neg (by omega)]
  rw [plan_of_lt hprevious, hadvance] at hplan
  split_ifs at hplan
  · dsimp only at hplan
    rw [plan_of_le (le_refl _)] at hplan
    exact (Except.ok.inj hplan).symm

/-- From any target on, the cores end at the cut points that `convert_long` adds. -/
theorem Serves.cutLoop_eq {source : RawFloatSpool α} (h : p.Serves source.samples.length)
    (hprevious : p.previous < source.samples.length) {cores : List (ℕ × ℕ)}
    (hplan : p.plan source = .ok cores) (bounds : List ℕ)
    (hbounds : bounds.getLastD 0 = p.previous) :
    cutLoop source.samples p.chunk p.query p.chunk_pos p.target bounds ++ [source.samples.length] =
      bounds ++ cores.map Prod.snd := by
  have hpos := h.target_pos
  -- The induction is on the distance of the target to the end of the clip.
  induction hd : source.samples.length - p.target using Nat.strongRecOn
    generalizing p bounds cores with
  | ind d ih =>
    rw [cutLoop]
    by_cases htarget : p.target < source.samples.length
    · have hchunk := p.chunk_pos
      have hstep := h.plan_of_target hprevious htarget hplan
      rw [if_pos htarget]
      dsimp only at hstep ⊢
      rw [hbounds]
      generalize quietestFrame source.samples p.query p.target * kPitchHop = pos at hstep ⊢
      split_ifs at hstep ⊢ with hcut
      · obtain ⟨rest, rfl, hrest⟩ := hstep
        have hrec := ih (source.samples.length - (p.target + p.chunk)) (by omega)
          (p := { p with target := p.target + p.chunk, previous := pos })
          ⟨h.samples_eq, h.query_ge, h.query_lt, h.chunk_lt, by dsimp only; omega⟩ hcut.2 hrest
          (bounds ++ [pos]) (by simp) (by dsimp only; omega) rfl
        rw [hrec, List.map_cons, List.append_assoc]
        rfl
      · exact ih (source.samples.length - (p.target + p.chunk)) (by omega)
          (p := { p with target := p.target + p.chunk })
          ⟨h.samples_eq, h.query_ge, h.query_lt, h.chunk_lt, by dsimp only; omega⟩ hprevious hstep
          bounds hbounds (by dsimp only; omega) rfl
    · have hsamples := h.samples_eq
      rw [if_neg htarget, plan_of_last (by omega) (by omega) hplan, hsamples]
      rfl

/-- The cores of a plan make up the rest of the clip. -/
theorem partitions_of_plan {source : RawFloatSpool α} {cores : List (ℕ × ℕ)}
    (hprevious : p.previous ≤ p.samples) (hplan : p.plan source = .ok cores) :
    Partitions p.previous cores p.samples := by
  induction hd : p.samples - p.previous using Nat.strongRecOn generalizing p cores with
  | ind d ih =>
    by_cases hend : p.samples ≤ p.previous
    · rw [plan_of_le hend] at hplan
      cases hplan
      rw [Nat.le_antisymm hprevious hend]
      exact Partitions.nil _
    · rw [plan_of_lt (by omega)] at hplan
      rcases hadvance : p.advance source with message | ⟨⟨start, stop⟩, p'⟩
      · rw [hadvance] at hplan
        cases hplan
      · obtain ⟨rfl, rfl, hlt, hle, hsamples⟩ := advance_spec (by omega) hadvance
        rw [hadvance] at hplan
        rcases hrest : p'.plan source with message | rest
        · simp only [hrest] at hplan
          cases hplan
        · simp only [hrest] at hplan
          cases hplan
          rw [← hsamples]
          exact Partitions.cons hlt (ih _ (by omega) (by omega) hrest rfl)

end QuietCorePlanner

/-- The cores of a partition are the intervals between the points at which they end. -/
theorem Partitions.eq_zip {start n : ℕ} {cores : List (ℕ × ℕ)} (h : Partitions start cores n) :
    cores = (start :: cores.map Prod.snd).zip (cores.map Prod.snd) := by
  induction h with
  | nil n => rfl
  | cons _ _ ih =>
    rw [List.map_cons, List.zip_cons_cons]
    exact congrArg _ ih

/-! ### The plan of a clip -/

variable {α : Type} [Sample α] [FrameEnergy α]

/-- The plan of a clip with the chunk and query sizes of a configuration. -/
def quietPlan (source : RawFloatSpool α) (maxChunk chunkQuery : Int32) (hardCore : ℕ) :
    Except String (List (ℕ × ℕ)) :=
  (QuietCorePlanner.create source.sampleCount (atLeastHop maxChunk) (atLeastHop chunkQuery)
    hardCore (atLeastHop_pos maxChunk)).plan source

/-- Four frames, the third of them silent. -/
def fourFrames : RawFloatSpool ℤ where
  samples := List.replicate 320 1 ++ List.replicate 160 0 ++ List.replicate 160 1
  finite _ _ := rfl
  bounded := by
    simp only [List.length_append, List.length_replicate, offMax]
    omega

end Resonantia.Pipeline
