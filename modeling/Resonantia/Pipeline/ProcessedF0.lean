import Mathlib.Algebra.Order.Field.Basic
import Resonantia.Library.BinaryFloat
import Resonantia.Pipeline.LegacyF0
import Resonantia.Pipeline.SpoolLoops

/-!
# F0 processing in bounded memory

`build_processed_f0` reads the raw F0 from a spool block by block. A gap of unvoiced frames is
written when the next voiced frame comes, or at the end; the median filter reads a block with a halo
of its radius. In every arithmetic and wherever the blocks fall, the frames are the filled gaps behind
the legacy median filter and the shift. Only the interpolation has another formula: the bounded
pipeline multiplies by the fraction of the gap and also recomputes the voiced frame at its end, the
legacy one multiplies by the distance and divides. Where the formulas agree, so do the frames.

## Main definitions

* `Pipeline.boundedLine`: the value in a gap.
* `Pipeline.interpolateF0`: the first half of `build_processed_f0`.
* `Pipeline.buildProcessedF0`: `build_processed_f0`.
* `Pipeline.boundedFill`: the gaps filled by the streamed formula.
* `Pipeline.boundedF0`: the streamed processing of a whole clip in memory.

## Main results

* `Pipeline.outcome_interpolateF0`: the interpolated frames.
* `Pipeline.boundedF0_eq_legacyF0`: where the formulas agree, the frames are those of the legacy
  processing.
* `Pipeline.buildProcessedF0_spec`: the frames of `build_processed_f0`.
-/

namespace Resonantia.Pipeline

open Slices Io BlockLoop BinaryFloat

variable {α : Type} [Sample α] [LinearOrder α] [Zero α] [Add α] [Sub α] [Mul α] [Div α] [NatCast α]

/-! ### The streamed loops -/

/-- `find_first_voiced`, from a block on. -/
def findFirstVoiced (raw : RawFloatSpool α) (offset : ℕ) : Except String (Option (ℕ × α)) :=
  if _h : offset < raw.sampleCount then do
    let count := min kIoBlockSamples (raw.sampleCount - offset)
    let block ← readSpool raw offset count "raw F0 spool read failed"
    match block.findIdx? (fun x => decide (0 < x)) with
    | some frame => return some (offset + frame, block.getD frame 0)
    | none => findFirstVoiced raw (offset + count)
  else return none
termination_by raw.sampleCount - offset
decreasing_by
  simp only [kIoBlockSamples]
  omega

/-- The value in a gap of `append_linear_gap`. -/
def boundedLine (left right : α) (k distance : ℕ) : α :=
  left + (right - left) * ((k : α) / (distance : α))

/-- `append_linear_gap`: the gap up to the voiced frame at its end. -/
def appendLinearGap (spool : RawFloatSpool α) (leftIndex : ℕ) (leftValue : α) (rightIndex : ℕ)
    (rightValue : α) : Except String (RawFloatSpool α) := do
  require (¬rightIndex ≤ leftIndex) "invalid F0 interpolation gap"
  let distance := rightIndex - leftIndex
  overBlocks kIoBlockSamples (rightIndex + 1)
    (fun first count spool =>
      appendSpool spool
        ((List.range' first count).map fun index =>
          boundedLine leftValue rightValue (index - leftIndex) distance)
        "interpolated F0 spool append failed") (leftIndex + 1) spool

/-- The interpolated frames and the last voiced frame. -/
structure GapState (α : Type) [Sample α] where
  interpolated : RawFloatSpool α
  leftIndex : ℕ
  leftValue : α

/-- A raw frame at its index. -/
def gapStep (state : GapState α) (frame : α × ℕ) : Except String (GapState α) :=
  if frame.1 ≤ 0 then return state
  else do
    let interpolated ← appendLinearGap state.interpolated state.leftIndex state.leftValue frame.2
      frame.1
    return { interpolated := interpolated, leftIndex := frame.2, leftValue := frame.1 }

/-- The interpolation of `build_processed_f0`. -/
def interpolateF0 (raw : RawFloatSpool α) (interpolateUnvoiced : Bool) :
    Except String (RawFloatSpool α) :=
  if ¬interpolateUnvoiced then copySpool raw .create
  else do
    match ← findFirstVoiced raw 0 with
    | none => copySpool raw .create
    | some (firstIndex, firstValue) =>
      let interpolated ← appendRepeated .create firstValue (firstIndex + 1)
      let state ← overBlocks kIoBlockSamples raw.sampleCount
        (fun offset count state => do
          let block ← readSpool raw offset count "raw F0 interpolation read failed"
          (block.zipIdx offset).foldlM gapStep state) (firstIndex + 1)
        { interpolated := interpolated, leftIndex := firstIndex, leftValue := firstValue }
      appendRepeated state.interpolated state.leftValue (raw.sampleCount - state.leftIndex - 1)

/-- The radius of the median filter. -/
def medianRadius (filterRadius : ℤ) : ℕ :=
  if filterRadius ≥ 3 then (filterRadius.toNat ||| 1) / 2 else 0

/-- The frame that the median window takes at `global + delta`. -/
def clampedFrame (total global : ℕ) (delta : ℤ) : ℕ :=
  if delta < 0 ∧ (-delta).toNat > global then 0
  else min (total - 1) (if delta < 0 then global - (-delta).toNat else global + delta.toNat)

/-- A processed frame, from a halo that starts at `haloStart`. -/
def processedFrame (pitchFactor : α) (radius total haloStart : ℕ) (halo : List α) (global : ℕ) : α :=
  let value :=
    if radius > 0 then
      (sorted ((List.range (2 * radius + 1)).map fun (j : ℕ) =>
        halo.getD (clampedFrame total global ((j : ℤ) - radius) - haloStart) 0)).getD radius 0
    else halo.getD (global - haloStart) 0
  if 0 < value then value * pitchFactor else value

/-- A block of processed frames. -/
def processBlock (pitchFactor : α) (radius : ℕ) (interpolated : RawFloatSpool α)
    (offset count : ℕ) (processed : RawFloatSpool α) : Except String (RawFloatSpool α) := do
  let total := interpolated.sampleCount
  let haloStart := if offset > radius then offset - radius else 0
  let haloEnd := min total (offset + count + radius)
  let halo ← readSpool interpolated haloStart (haloEnd - haloStart)
    "processed F0 halo read failed"
  let output ← (List.range' offset count).mapM fun global => do
    let value := processedFrame pitchFactor radius total haloStart halo global
    require (Sample.isFinite value = true) "processed F0 is not finite"
    return value
  appendSpool processed output "processed F0 spool append failed"

/-- `build_processed_f0`; `pitchFactor` is `std::pow(2.0f, shift / 12.0f)`. -/
def buildProcessedF0 (pitchFactor : ℤ → α) (raw : RawFloatSpool α) (interpolateUnvoiced : Bool)
    (filterRadius pitchShift : ℤ) : Except String (RawFloatSpool α) := do
  let interpolated ← interpolateF0 raw interpolateUnvoiced
  require (interpolated.sampleCount = raw.sampleCount) "interpolated F0 spool length mismatch"
  let radius := medianRadius filterRadius
  let kernel := 2 * radius + 1
  require (¬kernel > 31) "F0 median filter exceeds the supported radius"
  require (Sample.isFinite (pitchFactor pitchShift) = true) "invalid F0 pitch factor"
  let processed ← overBlocks kIoBlockSamples interpolated.sampleCount
    (processBlock (pitchFactor pitchShift) radius interpolated) 0 .create
  require (processed.sampleCount = raw.sampleCount) "processed F0 spool length mismatch"
  return processed

/-! ### The interpolated frames -/

omit [Add α] [Sub α] [Mul α] [Div α] [NatCast α] in
/-- The search finds the first voiced frame, wherever the blocks fall. -/
theorem findFirstVoiced_eq (raw : RawFloatSpool α) {offset : ℕ}
    (hoffset : offset ≤ raw.samples.length) :
    findFirstVoiced raw offset =
      .ok (((raw.samples.drop offset).findIdx? fun x => decide (0 < x)).map fun frame =>
        (offset + frame, raw.samples.getD (offset + frame) 0)) := by
  induction hd : raw.samples.length - offset using Nat.strongRecOn generalizing offset with
  | ind d ih =>
    subst hd
    rw [findFirstVoiced]
    by_cases hmore : offset < raw.sampleCount
    · rw [dif_pos hmore]
      rw [RawSampleSpool.sampleCount] at hmore ⊢
      dsimp only
      have hpos : 0 < min kIoBlockSamples (raw.samples.length - offset) :=
        lt_min (by decide) (by omega)
      have hle : offset + min kIoBlockSamples (raw.samples.length - offset) ≤
          raw.samples.length := by omega
      generalize min kIoBlockSamples (raw.samples.length - offset) = count at hpos hle ⊢
      rw [readSpool_of_le _ (by decide) hle]
      have hsplit : raw.samples.drop offset =
          slice raw.samples offset (offset + count) ++ raw.samples.drop (offset + count) := by
        rw [slice, Nat.add_sub_cancel_left, ← List.drop_drop, List.take_append_drop]
      rw [hsplit, List.findIdx?_append, length_slice hle, Nat.add_sub_cancel_left]
      change (match (slice raw.samples offset (offset + count)).findIdx? _ with
        | some frame => _
        | none => _) = _
      cases hfind : (slice raw.samples offset (offset + count)).findIdx? fun x => decide (0 < x) with
      | some frame =>
        have hframe : frame < count := by
          have hlt := (List.findIdx?_eq_some_iff_findIdx_eq.1 hfind).1
          rw [length_slice hle, Nat.add_sub_cancel_left] at hlt
          exact hlt
        have hget : (slice raw.samples offset (offset + count)).getD frame 0 =
            raw.samples.getD (offset + frame) 0 := by
          rw [List.getD_eq_getElem?_getD, getElem?_slice, if_pos (by omega),
            ← List.getD_eq_getElem?_getD]
        dsimp only
        rw [hget]
        rfl
      | none =>
        dsimp only
        rw [ih _ (by omega) hle rfl, Option.none_or, Option.map_map]
        refine congrArg Except.ok (congrFun (congrArg _ (funext fun frame => ?_)) _)
        rw [Function.comp_apply, Nat.add_assoc, Nat.add_comm count]
    · rw [dif_neg hmore, List.drop_eq_nil_of_le (not_lt.1 hmore)]
      rfl

/-- The frames behind a voiced frame of value `left` and `gap` unvoiced ones: a gap and the voiced
frame at its end are written by the streamed formula. -/
def boundedFillFrom (left : α) (gap : ℕ) : List α → List α
  | [] => List.replicate gap left
  | x :: f0 =>
    if 0 < x then
      (List.range' 1 (gap + 1)).map (fun k => boundedLine left x k (gap + 1)) ++
        boundedFillFrom x 0 f0
    else boundedFillFrom left (gap + 1) f0

/-- The frames filled by the streamed formula; those up to the first voiced one take its value. -/
def boundedFill (f0 : List α) : List α :=
  match f0.findIdx? (fun x => decide (0 < x)) with
  | none => f0
  | some first =>
    List.replicate (first + 1) (f0.getD first 0) ++
      boundedFillFrom (f0.getD first 0) 0 (f0.drop (first + 1))

omit [Sample α] in
theorem length_boundedFillFrom (left : α) (gap : ℕ) (f0 : List α) :
    (boundedFillFrom left gap f0).length = gap + f0.length := by
  induction f0 generalizing left gap with
  | nil => exact List.length_replicate
  | cons x f0 ih =>
    rw [boundedFillFrom]
    split
    · rw [List.length_append, List.length_map, List.length_range', ih, List.length_cons]
      omega
    · rw [ih, List.length_cons]
      omega

omit [Sample α] in
theorem length_boundedFill (f0 : List α) : (boundedFill f0).length = f0.length := by
  rw [boundedFill]
  split
  · rfl
  · rename_i first hfirst
    have hlt := (List.findIdx?_eq_some_iff_findIdx_eq.1 hfirst).1
    rw [List.length_append, List.length_replicate, length_boundedFillFrom, List.length_drop]
    omega

omit [LinearOrder α] [Zero α] in
/-- A gap is one append. -/
theorem appendLinearGap_eq (spool : RawFloatSpool α) (leftIndex gap : ℕ) (left right : α) :
    appendLinearGap spool leftIndex left (leftIndex + 1 + gap) right =
      appendSpool spool
        ((List.range' 1 (gap + 1)).map fun k => boundedLine left right k (gap + 1))
        "interpolated F0 spool append failed" := by
  have hdistance : leftIndex + 1 + gap - leftIndex = gap + 1 := by omega
  have hvalues : (List.range' (leftIndex + 1) (gap + 1)).map (fun index =>
      boundedLine left right (index - leftIndex) (leftIndex + 1 + gap - leftIndex)) =
        (List.range' 1 (gap + 1)).map fun k => boundedLine left right k (gap + 1) := by
    rw [hdistance, List.range'_eq_map_range, List.range'_eq_map_range, List.map_map, List.map_map]
    refine List.map_congr_left fun k _ => ?_
    have hindex : leftIndex + 1 + k - leftIndex = 1 + k := by omega
    simp only [Function.comp_apply, hindex]
  have hcount : leftIndex + 1 + gap + 1 - (leftIndex + 1) = gap + 1 := by omega
  rw [appendLinearGap, require, if_pos (by omega)]
  change overBlocks _ _ _ _ _ = _
  rw [overBlocks_appendSpool (by decide) _ _ _ (by omega), hcount, hvalues]

/-- The frames behind a voiced frame are filled gap by gap. -/
theorem outcome_foldlM_gapStep {f0 : List α} {n gap : ℕ} (state : GapState α)
    (hn : n = state.leftIndex + 1 + gap)
    (hlength : state.interpolated.samples.length = state.leftIndex + 1)
    (hfits : (n + f0.length) * 4 ≤ offMax) (hleft : Sample.isFinite state.leftValue = true)
    (hfinite : ∀ x ∈ f0, Sample.isFinite x = true) :
    Outcome
      (fun t : RawFloatSpool α =>
        t.samples = state.interpolated.samples ++ boundedFillFrom state.leftValue gap f0)
      (fun _ => ∃ x ∈ boundedFillFrom state.leftValue gap f0, Sample.isFinite x = false)
      ((f0.zipIdx n).foldlM gapStep state >>= fun last =>
        appendRepeated last.interpolated last.leftValue (n + f0.length - last.leftIndex - 1)) := by
  induction f0 generalizing state n gap with
  | nil =>
    change Outcome _ _ (appendRepeated state.interpolated state.leftValue _)
    have hcount : n + ([] : List α).length - state.leftIndex - 1 = gap := by
      rw [List.length_nil]
      omega
    rw [hcount]
    refine outcome_conseq (outcome_appendRepeated state.interpolated state.leftValue gap ?_)
      (fun t ht => ht) (fun message hnot => ?_)
    · rw [hlength, ← hn]
      exact hfits
    · rw [hleft] at hnot
      cases hnot
  | cons x f0 ih =>
    have hrest (y : α) (hy : y ∈ f0) := hfinite y (List.mem_cons_of_mem _ hy)
    rw [List.length_cons] at hfits ⊢
    have hcount : n + (f0.length + 1) = n + 1 + f0.length := by omega
    rw [hcount] at hfits ⊢
    rw [List.zipIdx_cons, List.foldlM_cons, bind_assoc, gapStep, boundedFillFrom]
    by_cases hx : 0 < x
    · rw [if_neg (not_le.2 hx), if_pos hx]
      dsimp only
      rw [hn, appendLinearGap_eq, bind_assoc]
      refine outcome_bind (outcome_conseq (outcome_appendSpool _ _ _ ?_) (fun t ht => ht) ?_) ?_
      · rw [hlength, List.length_map, List.length_range']
        exact (Nat.mul_le_mul_right 4 (by omega)).trans hfits
      · rintro message ⟨y, hy, hnot⟩
        exact ⟨y, List.mem_append_left _ hy, hnot⟩
      · intro t ht
        have hstep := @ih (state.leftIndex + 1 + gap + 1) 0
          { interpolated := t, leftIndex := state.leftIndex + 1 + gap, leftValue := x } rfl
          (by
            rw [ht, List.length_append, List.length_map, List.length_range', hlength]
            rfl)
          (hn ▸ hfits) (hfinite x List.mem_cons_self) hrest
        refine outcome_conseq hstep (fun u hu => ?_) fun message hnot => ?_
        · rw [hu, ht, List.append_assoc]
        · obtain ⟨y, hy, hnot⟩ := hnot
          exact ⟨y, List.mem_append_right _ hy, hnot⟩
    · rw [if_pos (not_lt.1 hx), if_neg hx]
      exact ih state (by omega) hlength hfits hleft hrest

/-- **The streamed interpolation.** The gaps are filled, wherever the blocks fall, or a frame is not
finite. -/
theorem outcome_interpolateF0 (raw : RawFloatSpool α) (interpolateUnvoiced : Bool) :
    Outcome
      (fun t : RawFloatSpool α =>
        t.samples = if interpolateUnvoiced then boundedFill raw.samples else raw.samples)
      (fun _ => interpolateUnvoiced = true ∧
        ∃ x ∈ boundedFill raw.samples, Sample.isFinite x = false)
      (interpolateF0 raw interpolateUnvoiced) := by
  obtain ⟨copy, hcopy, hsamples⟩ := exists_copySpool (by decide) raw
  cases interpolateUnvoiced with
  | false =>
    rw [interpolateF0, if_pos Bool.false_ne_true, hcopy]
    exact hsamples
  | true =>
    have hbounded := raw.bounded
    rw [interpolateF0, if_neg (not_not_intro rfl), findFirstVoiced_eq raw (Nat.zero_le _),
      List.drop_zero, if_pos rfl, boundedFill]
    cases hfind : raw.samples.findIdx? fun x => decide (0 < x) with
    | none =>
      change Outcome _ _ (copySpool raw .create)
      rw [hcopy]
      exact hsamples
    | some first =>
      have hfirst : first < raw.samples.length :=
        (List.findIdx?_eq_some_iff_findIdx_eq.1 hfind).1
      have hvalue : Sample.isFinite (raw.samples.getD first 0) = true := by
        refine raw.finite _ ?_
        rw [List.getD_eq_getElem?_getD, List.getElem?_eq_getElem hfirst]
        exact List.getElem_mem hfirst
      have hread (state : GapState α) :
          overBlocks kIoBlockSamples raw.sampleCount (fun offset count state => do
            let block ← readSpool raw offset count "raw F0 interpolation read failed"
            (block.zipIdx offset).foldlM gapStep state) (first + 1) state =
              ((raw.samples.drop (first + 1)).zipIdx (first + 1)).foldlM gapStep state := by
        rw [← overBlocks_foldlM (show 0 < kIoBlockSamples by decide)]
        refine overBlocks_congr (fun offset count state hle => ?_) _ _
        rw [readSpool_of_le _ (by decide) hle]
        rfl
      change Outcome _ _ (appendRepeated .create (raw.samples.getD (0 + first) 0) (0 + first + 1) >>=
        fun interpolated => _)
      simp only [Nat.zero_add, hread]
      refine outcome_bind (outcome_conseq (outcome_appendRepeated .create _ (first + 1) ?_)
        (fun t ht => ht) fun message hnot => ?_) ?_
      · rw [RawSampleSpool.samples_create, List.length_nil]
        exact (Nat.mul_le_mul_right 4 (by omega)).trans hbounded
      · rw [hvalue] at hnot
        cases hnot
      · intro t ht
        have hlength : t.samples.length = first + 1 := by
          rw [ht, List.length_append, List.length_replicate]
          exact Nat.zero_add _
        have hcount : first + 1 + (raw.samples.drop (first + 1)).length = raw.samples.length := by
          rw [List.length_drop]
          omega
        have hfold := @outcome_foldlM_gapStep α _ _ _ _ _ _ _ _
          (raw.samples.drop (first + 1)) (first + 1) 0
          { interpolated := t, leftIndex := first, leftValue := raw.samples.getD first 0 } rfl
          hlength (by rw [hcount]; exact hbounded) hvalue
          fun x hx => raw.finite x (List.mem_of_mem_drop hx)
        rw [hcount] at hfold
        refine outcome_conseq hfold (fun u hu => ?_) fun message hnot => ⟨trivial, ?_⟩
        · rw [hu, ht]
          rfl
        · obtain ⟨x, hx, hnot⟩ := hnot
          exact ⟨x, List.mem_append_right _ hx, hnot⟩

/-! ### The processed frames -/

/-- A frame of the legacy processing behind the interpolation. -/
def legacyFrame (pitchFactor : α) (radius : ℕ) (f0 : List α) (i : ℕ) : α :=
  let value :=
    if radius > 0 then
      (sorted ((List.range (2 * radius + 1)).map fun (j : ℕ) =>
        f0.getD (clampIndex f0.length ((i : ℤ) + ((j : ℤ) - radius))) 0)).getD radius 0
    else f0.getD i 0
  if 0 < value then value * pitchFactor else value

omit [Sample α] [LinearOrder α] [Add α] [Sub α] [Mul α] [Div α] [NatCast α] in
theorem getD_slice_sub (l : List α) {s e i : ℕ} (hs : s ≤ i) (he : i < e) :
    (slice l s e).getD (i - s) 0 = l.getD i 0 := by
  rw [getD_slice l 0 (by omega), Nat.add_sub_cancel' hs]

/-- The window of the halo is clamped as the window of the whole clip is. -/
theorem clampedFrame_eq {total global : ℕ} (delta : ℤ) (h : global < total) :
    clampedFrame total global delta = clampIndex total ((global : ℤ) + delta) := by
  rw [clampedFrame, clampIndex]
  split_ifs <;> omega

omit [Sample α] [Add α] [Sub α] [Div α] [NatCast α] in
/-- The halo holds all that a frame of its block reads. -/
theorem processedFrame_eq_legacyFrame (pitchFactor : α) {radius haloStart haloEnd i : ℕ}
    {f0 : List α} (hi : i < f0.length) (hstart : haloStart + radius ≤ i ∨ haloStart = 0)
    (hend : i + radius < haloEnd ∨ haloEnd = f0.length) :
    processedFrame pitchFactor radius f0.length haloStart (slice f0 haloStart haloEnd) i =
      legacyFrame pitchFactor radius f0 i := by
  have hwindow (j : ℕ) (hj : j ∈ List.range (2 * radius + 1)) :
      (slice f0 haloStart haloEnd).getD
          (clampedFrame f0.length i ((j : ℤ) - radius) - haloStart) 0 =
        f0.getD (clampIndex f0.length ((i : ℤ) + ((j : ℤ) - radius))) 0 := by
    have hlt := List.mem_range.1 hj
    rw [clampedFrame_eq _ hi]
    refine getD_slice_sub f0 ?_ ?_
    · rw [clampIndex]
      omega
    · rw [clampIndex]
      omega
  have hcentre : (slice f0 haloStart haloEnd).getD (i - haloStart) 0 = f0.getD i 0 :=
    getD_slice_sub f0 (by omega) (by omega)
  rw [processedFrame, legacyFrame, List.map_congr_left hwindow, hcentre]

omit [LinearOrder α] [Zero α] [Add α] [Sub α] [Mul α] [Div α] [NatCast α] in
/-- The check of every frame of a block. -/
theorem outcome_mapM_finite (frames : List ℕ) (value : ℕ → α) (message : String) :
    Outcome (fun output => output = frames.map value)
      (fun _ => ∃ x ∈ frames.map value, Sample.isFinite x = false)
      (frames.mapM fun i => do
        require (Sample.isFinite (value i) = true) message
        return value i) := by
  induction frames with
  | nil => exact rfl
  | cons i frames ih =>
    rw [List.mapM_cons]
    by_cases hfinite : Sample.isFinite (value i) = true
    · rw [require, if_pos hfinite]
      change Outcome _ _ (List.mapM _ frames >>= fun output => .ok (value i :: output))
      refine outcome_bind (outcome_conseq ih (fun output ht => ht) ?_) fun output houtput => ?_
      · rintro _ ⟨x, hx, hnot⟩
        exact ⟨x, List.mem_cons_of_mem _ hx, hnot⟩
      · change value i :: output = _
        rw [houtput, List.map_cons]
    · rw [require, if_neg hfinite]
      exact ⟨value i, List.mem_cons_self, Bool.eq_false_of_not_eq_true hfinite⟩

omit [Add α] [Sub α] [Div α] [NatCast α] in
/-- A block adds its processed frames. -/
theorem outcome_processBlock (pitchFactor : α) (radius : ℕ) (interpolated : RawFloatSpool α)
    {offset count : ℕ} {processed : RawFloatSpool α}
    (hle : offset + count ≤ interpolated.samples.length)
    (hprocessed : processed.samples =
      (List.range offset).map (legacyFrame pitchFactor radius interpolated.samples)) :
    Outcome
      (fun t : RawFloatSpool α => t.samples =
        (List.range (offset + count)).map (legacyFrame pitchFactor radius interpolated.samples))
      (fun _ => ∃ x ∈ (List.range interpolated.samples.length).map
        (legacyFrame pitchFactor radius interpolated.samples), Sample.isFinite x = false)
      (processBlock pitchFactor radius interpolated offset count processed) := by
  have hstart : (if offset > radius then offset - radius else 0) = offset - radius := by
    split <;> omega
  have hread : offset - radius +
      (min interpolated.samples.length (offset + count + radius) - (offset - radius)) =
        min interpolated.samples.length (offset + count + radius) := by omega
  have hframes : (List.range' offset count).map
      (processedFrame pitchFactor radius interpolated.samples.length (offset - radius)
        (slice interpolated.samples (offset - radius)
          (min interpolated.samples.length (offset + count + radius)))) =
        (List.range' offset count).map
          (legacyFrame pitchFactor radius interpolated.samples) := by
    refine List.map_congr_left fun i hi => ?_
    have hmem := List.mem_range'_1.1 hi
    exact processedFrame_eq_legacyFrame pitchFactor (by omega) (by omega) (by omega)
  have hmem (x : α) (hx : x ∈ (List.range' offset count).map
      (legacyFrame pitchFactor radius interpolated.samples)) :
      x ∈ (List.range interpolated.samples.length).map
        (legacyFrame pitchFactor radius interpolated.samples) := by
    obtain ⟨i, hi, rfl⟩ := List.mem_map.1 hx
    have hrange := List.mem_range'_1.1 hi
    exact List.mem_map_of_mem (List.mem_range.2 (by omega))
  rw [processBlock, RawSampleSpool.sampleCount]
  dsimp only
  rw [hstart, readSpool_of_le _ (by decide) (by omega), hread]
  change Outcome _ _ (List.mapM _ (List.range' offset count) >>= fun output =>
    appendSpool processed output _)
  refine outcome_bind (outcome_conseq (outcome_mapM_finite _ _ _) (fun output ht => ht) ?_) ?_
  · rintro _ ⟨x, hx, hnot⟩
    rw [hframes] at hx
    exact ⟨x, hmem x hx, hnot⟩
  · rintro output rfl
    rw [hframes]
    refine outcome_conseq (outcome_appendSpool processed _ _ ?_) (fun t ht => ?_) ?_
    · rw [hprocessed, List.length_map, List.length_range, List.length_map, List.length_range']
      exact (Nat.mul_le_mul_right 4 hle).trans interpolated.bounded
    · rw [ht, hprocessed, ← List.map_append, List.range_eq_range', List.range_eq_range',
        ← List.range'_append, Nat.one_mul, Nat.zero_add]
    · rintro _ ⟨x, hx, hnot⟩
      exact ⟨x, hmem x hx, hnot⟩

theorem medianRadius_of_le {filterRadius : ℤ} (h : filterRadius ≥ 3) :
    ¬(filterRadius.toNat ||| 1) < 3 ∧
      ((filterRadius.toNat ||| 1) - 1) / 2 = medianRadius filterRadius ∧
      0 < medianRadius filterRadius := by
  have hle : filterRadius.toNat ≤ filterRadius.toNat ||| 1 := Nat.left_le_or
  have hodd : (filterRadius.toNat ||| 1) % 2 = 1 := Nat.or_mod_two_eq_one.2 (Or.inr rfl)
  rw [medianRadius, if_pos h]
  omega

/-- The streamed processing of a whole clip in memory: the gaps are filled by the streamed formula,
then the legacy median filter smooths the curve and the voiced frames are shifted. -/
def boundedF0 (pitchFactor : ℤ → α) (interpolateUnvoiced : Bool) (filterRadius pitchShift : ℤ)
    (f0 : List α) : List α :=
  let f0 := if interpolateUnvoiced then boundedFill f0 else f0
  let f0 := if filterRadius ≥ 3 then medianFilter f0 (filterRadius.toNat ||| 1) else f0
  f0.map fun v => if 0 < v then v * pitchFactor pitchShift else v

omit [Sample α] [Add α] [Sub α] [Div α] [NatCast α] in
/-- The median filter and the shift, frame by frame. -/
theorem map_medianFilter (factor : α) (filterRadius : ℤ) (filled : List α) :
    (if filterRadius ≥ 3 then medianFilter filled (filterRadius.toNat ||| 1) else filled).map
        (fun v => if 0 < v then v * factor else v) =
      (List.range filled.length).map (legacyFrame factor (medianRadius filterRadius) filled) := by
  have hmedian : (if filterRadius ≥ 3 then medianFilter filled (filterRadius.toNat ||| 1)
      else filled) = (List.range filled.length).map fun (i : ℕ) =>
        if medianRadius filterRadius > 0 then
          (sorted ((List.range (2 * medianRadius filterRadius + 1)).map fun (j : ℕ) =>
            filled.getD (clampIndex filled.length
              ((i : ℤ) + ((j : ℤ) - medianRadius filterRadius))) 0)).getD
                (medianRadius filterRadius) 0
        else filled.getD i 0 := by
    by_cases h : filterRadius ≥ 3
    · obtain ⟨hkernel, hradius, hpos⟩ := medianRadius_of_le h
      have hcentre (radius : ℕ) : (2 * radius + 1) / 2 = radius := by omega
      rw [if_pos h, medianFilter, if_neg hkernel, hradius]
      simp only [if_pos hpos, List.length_map, List.length_range, hcentre]
    · have hzero : medianRadius filterRadius = 0 := if_neg h
      rw [if_neg h, hzero]
      refine List.ext_getElem? fun i => ?_
      rw [List.getElem?_map]
      by_cases hi : i < filled.length
      · rw [List.getElem?_range hi, List.getElem?_eq_getElem hi]
        simp [List.getD_eq_getElem?_getD, hi]
      · rw [List.getElem?_eq_none (not_lt.1 hi),
          List.getElem?_eq_none (by rw [List.length_range]; exact not_lt.1 hi)]
        rfl
  rw [hmedian, List.map_map]
  rfl

/-- The streamed processing produces these frames, or a frame or an interpolated frame is not
finite. -/
theorem outcome_buildProcessedF0 (pitchFactor : ℤ → α) (raw : RawFloatSpool α)
    (interpolateUnvoiced : Bool) (filterRadius pitchShift : ℤ)
    (hradius : 2 * medianRadius filterRadius + 1 ≤ 31)
    (hfactor : Sample.isFinite (pitchFactor pitchShift) = true) :
    Outcome
      (fun processed : RawFloatSpool α => processed.samples =
        boundedF0 pitchFactor interpolateUnvoiced filterRadius pitchShift raw.samples)
      (fun _ => ∃ x, Sample.isFinite x = false ∧
        (x ∈ boundedF0 pitchFactor interpolateUnvoiced filterRadius pitchShift raw.samples ∨
          interpolateUnvoiced = true ∧ x ∈ boundedFill raw.samples))
      (buildProcessedF0 pitchFactor raw interpolateUnvoiced filterRadius pitchShift) := by
  rw [buildProcessedF0, boundedF0, map_medianFilter]
  refine outcome_bind (outcome_conseq (outcome_interpolateF0 raw interpolateUnvoiced)
    (fun t ht => ht) ?_) ?_
  · rintro _ ⟨hflag, x, hx, hnot⟩
    exact ⟨x, hnot, Or.inr ⟨hflag, hx⟩⟩
  · intro interpolated hinterpolated
    have hlength : interpolated.samples.length = raw.samples.length := by
      rw [hinterpolated]
      split
      · exact length_boundedFill raw.samples
      · rfl
    rw [← hinterpolated, require,
      if_pos (show interpolated.sampleCount = raw.sampleCount from hlength)]
    change Outcome _ _ (require _ _ >>= fun _ => require _ _ >>= fun _ => _)
    rw [require, if_pos (not_lt.2 hradius), require, if_pos hfactor]
    change Outcome _ _ (overBlocks _ _ _ _ _ >>= fun processed => require _ _ >>= fun _ => _)
    have hloop := overBlocks_outcome
      (fun offset (processed : RawFloatSpool α) => processed.samples = (List.range offset).map
        (legacyFrame (pitchFactor pitchShift) (medianRadius filterRadius) interpolated.samples))
      (show 0 < kIoBlockSamples by decide)
      (fun offset count processed _ _ hle hprocessed =>
        outcome_processBlock (pitchFactor pitchShift) (medianRadius filterRadius) interpolated hle
          hprocessed)
      (Nat.zero_le _) (show (RawSampleSpool.create : RawFloatSpool α).samples = [] from rfl)
    refine outcome_bind (outcome_conseq hloop (fun t ht => ht) ?_) ?_
    · rintro _ ⟨x, hx, hnot⟩
      exact ⟨x, hnot, Or.inl hx⟩
    · intro processed hprocessed
      have hcount : processed.sampleCount = raw.sampleCount := by
        rw [RawSampleSpool.sampleCount, hprocessed, List.length_map, List.length_range]
        exact hlength
      rw [require, if_pos hcount]
      exact hprocessed

/-! ### The legacy processing -/

/-- The two ways to interpolate a gap agree, and the bounded one ends at the voiced frame. -/
structure LinesAgree (α : Type) [Add α] [Sub α] [Mul α] [Div α] [NatCast α] : Prop where
  inside (left right : α) {k distance : ℕ} : 0 < k → k < distance →
    boundedLine left right k distance = legacyLine left right k distance
  atEnd (left right : α) {distance : ℕ} : 0 < distance →
    boundedLine left right distance distance = right

/-- In exact arithmetic the two ways agree. -/
theorem linesAgree_of_field (K : Type) [Field K] [LinearOrder K] [IsStrictOrderedRing K] :
    LinesAgree K where
  inside left right k distance _ _ := by
    rw [boundedLine, legacyLine, mul_div_assoc]
  atEnd left right distance h := by
    rw [boundedLine, div_self (Nat.cast_ne_zero.2 (Nat.pos_iff_ne_zero.1 h)), mul_one,
      add_sub_cancel]

section Agreement

variable (hagree : LinesAgree α)

include hagree

omit [Sample α] in
theorem boundedFillFrom_eq_fillFrom (left : α) (gap : ℕ) (f0 : List α) :
    boundedFillFrom left gap f0 = fillFrom legacyLine left gap f0 := by
  induction f0 generalizing left gap with
  | nil => rfl
  | cons x f0 ih =>
    rw [boundedFillFrom, fillFrom]
    split
    · have hgap : (List.range' 1 gap).map (fun k => boundedLine left x k (gap + 1)) =
          (List.range' 1 gap).map fun k => legacyLine left x k (gap + 1) := by
        refine List.map_congr_left fun k hk => ?_
        have hrange := List.mem_range'_1.1 hk
        exact hagree.inside left x (by omega) (by omega)
      rewrite [List.range'_concat, List.map_append, List.map_singleton, hgap, Nat.one_mul,
        Nat.add_comm 1, hagree.atEnd left x (Nat.succ_pos gap), ih, List.append_assoc]
      rfl
    · exact ih left (gap + 1)

omit [Sample α] in
theorem boundedFill_eq_interpUnvoicedF0 (f0 : List α) :
    boundedFill f0 = interpUnvoicedF0 f0 := by
  rw [interpUnvoicedF0_eq_fillGaps, boundedFill, fillGaps]
  cases f0.findIdx? (fun x => decide (0 < x)) with
  | none => rfl
  | some first =>
    exact congrArg (List.replicate (first + 1) (f0.getD first 0) ++ ·)
      (boundedFillFrom_eq_fillFrom hagree _ _ _)

end Agreement

omit [Sample α] in
/-- **Where the formulas agree, the frames are those of the legacy processing.** At shift 0 the legacy
pipeline does not multiply. -/
theorem boundedF0_eq_legacyF0 {pitchFactor : ℤ → α} {interpolateUnvoiced : Bool}
    {filterRadius pitchShift : ℤ} (f0 : List α)
    (hone : pitchShift = 0 → ∀ v, 0 < v → v * pitchFactor 0 = v)
    (hagree : interpolateUnvoiced = true → LinesAgree α) :
    boundedF0 pitchFactor interpolateUnvoiced filterRadius pitchShift f0 =
      legacyF0 pitchFactor interpolateUnvoiced filterRadius pitchShift f0 := by
  have hfill : (if interpolateUnvoiced then boundedFill f0 else f0) =
      if interpolateUnvoiced then interpUnvoicedF0 f0 else f0 := by
    cases interpolateUnvoiced with
    | false => rfl
    | true => exact boundedFill_eq_interpUnvoicedF0 (hagree rfl) f0
  rw [boundedF0, legacyF0, hfill]
  by_cases hshift : pitchShift = 0
  · subst hshift
    have hvalue (v : α) : (if 0 < v then v * pitchFactor 0 else v) = v := by
      split
      · rename_i hvoiced
        exact hone rfl v hvoiced
      · rfl
    rw [if_neg (not_not_intro rfl)]
    simp only [hvalue, List.map_id']
  · rw [if_pos hshift]

/-- Rational numbers under the arithmetic of single precision: every result is rounded to
nearest. -/
def RoundedSingle : Type := ℚ

namespace RoundedSingle

instance : LinearOrder RoundedSingle := inferInstanceAs (LinearOrder ℚ)

instance : DecidableEq RoundedSingle := inferInstanceAs (DecidableEq ℚ)

instance : Zero RoundedSingle := inferInstanceAs (Zero ℚ)

instance : Sample RoundedSingle := inferInstanceAs (Sample ℚ)

instance : Add RoundedSingle where
  add x y := binary32.nearestSigned (@HAdd.hAdd ℚ ℚ ℚ _ x y)

instance : Sub RoundedSingle where
  sub x y := binary32.nearestSigned (@HSub.hSub ℚ ℚ ℚ _ x y)

instance : Mul RoundedSingle where
  mul x y := binary32.nearestSigned (@HMul.hMul ℚ ℚ ℚ _ x y)

instance : Div RoundedSingle where
  div x y := binary32.nearestSigned (@HDiv.hDiv ℚ ℚ ℚ _ x y)

instance : NatCast RoundedSingle where
  natCast n := binary32.nearestSigned (@Nat.cast ℚ _ n)

/-- The factor of no shift. -/
def one : RoundedSingle := (1 : ℚ)

end RoundedSingle

open RoundedSingle

/-- A frame of 1000 Hz in front of one a single-precision step above 50 Hz. -/
def fallingFrames : RawFloatSpool RoundedSingle where
  samples := [(1000 : ℚ), (50 + 1 / 2 ^ 18 : ℚ)]
  finite := fun _ _ => rfl
  bounded := by decide

/-- Two voiced frames with gaps in front, between and behind. -/
def gapFrames : RawFloatSpool RoundedSingle where
  samples := [(0 : ℚ), (1000 : ℚ), (0 : ℚ), (0 : ℚ), (50 + 1 / 2 ^ 18 : ℚ), (0 : ℚ)]
  finite := fun _ _ => rfl
  bounded := by decide

/-- The factors of an octave and of no shift. -/
def octave (shift : ℤ) : RoundedSingle := if shift = 12 then (2 : ℚ) else (1 : ℚ)

/-- Two voiced frames an octave apart in exact arithmetic, with gaps. -/
def exactFrames : RawFloatSpool ℚ where
  samples := [0, 110, 0, 0, 0, 220, 0]
  finite := fun _ _ => rfl
  bounded := by decide

end Resonantia.Pipeline
