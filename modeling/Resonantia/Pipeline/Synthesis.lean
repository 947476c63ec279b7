import Mathlib.Algebra.Order.Ring.Unbundled.Rat
import Resonantia.Pipeline.QuietPlanner
import Resonantia.Pipeline.RawF0

/-!
# Bounded conversion, core by core

`convert_file_bounded` lays out the chunks, extracts and processes F0, and synthesizes the clip core
by core. A core is synthesized from the reflected segment around it and the F0 frames of that
segment; the samples of the core are cut out of the synthesized piece, and missing samples at its
end are zero. With a checkpoint, the samples of a core that was saved before are taken in place.

The extractor, the processing of F0 and the synthesizer are parameters of a conversion: they are
fixed by the request, and they are functions, so that every attempt sees the same ones. The model
ends with the spools that the output is mixed from.

## Main definitions

* `Pipeline.BoundedConversion`: what a request fixes.
* `Pipeline.chunkLayout`: the checked bounds of cores and segments.
* `Pipeline.synthInput`: what synthesis is fed for a core.
* `Pipeline.coreSamples`: the output samples of a core.
* `Pipeline.convertFileBounded`: `convert_file_bounded`, up to the raw output samples.
-/

namespace Resonantia.Pipeline

open Slices Effect Io

/-- `kInputSampleRate`. -/
def kInputSampleRate : ℕ := 16000

/-- `kOutputSampleRate`. -/
def kOutputSampleRate : ℕ := 40000

/-- `kContentMaximumSamples`. -/
def kContentMaximumSamples : ℕ := 40 * kInputSampleRate

/-- `kIoBlockSamples`. -/
def kIoBlockSamples : ℕ := 8192

/-- `seconds_to_samples`, `none` standing for seconds that are not finite. The product of a `double`
with the sample rate is exact in `long double`. -/
def secondsToSamples (seconds : Option ℚ) : Option ℕ :=
  match seconds with
  | none => none
  | some seconds =>
    if seconds < 0 then none
    else
      let samples := seconds * kInputSampleRate
      if samples > uint64Max then none else some samples.floor.toNat

/-- The output sample that an input sample falls on. -/
def outputIndex (samples : ℕ) : ℕ := u64 (samples * kOutputSampleRate) / kInputSampleRate

/-! ### The layout of chunks -/

/-- What a conversion request fixes. -/
structure BoundedConversion (α : Type) [Sample α] where
  /-- The stable 16 kHz source behind the high-pass filter. -/
  filtered : RawFloatSpool α
  maxChunkSec : Option ℚ
  chunkQuerySec : Option ℚ
  chunkPadSec : Option ℚ
  f0Method : F0Method
  /-- `extract_f0`. -/
  extractF0 : List α → List α
  /-- `process_f0` with the pad and the length of the source in samples. -/
  processF0 : RawFloatSpool α → ℕ → ℕ → Except String (RawFloatSpool α)
  /-- `synth_segment`: a segment, its F0 frames, their unvoiced flags and the first frame. -/
  synthSegment : List α → List α → List Bool → ℕ → List α

/-- The bounds of cores and segments, within the limits of the content model. -/
structure ChunkLayout where
  query : ℕ
  pad : ℕ
  effectiveChunk : ℕ
  hardCore : ℕ
  hardSegment : ℕ
  chunk_pos : 0 < effectiveChunk

/-- The checks of `convert_file_bounded` on the chunk configuration. -/
def chunkLayout (maxChunkSec chunkQuerySec chunkPadSec : Option ℚ) (sourceSamples : ℕ) :
    Except String ChunkLayout :=
  match secondsToSamples maxChunkSec, secondsToSamples chunkQuerySec,
      secondsToSamples chunkPadSec with
  | some requestedChunk, some query, some pad =>
    let requestedChunk := max requestedChunk kPitchHop
    let query := max query kPitchHop
    let pad := min (max pad kPitchHop) (sourceSamples - 1)
    match checkedMul query 2, checkedMul pad 2 with
    | some queryTwice, some padTwice =>
      match (checkedAdd queryTwice padTwice).bind (checkedAdd · kPitchHop) with
      | some fixedOverhead =>
        if fixedOverhead ≥ kContentMaximumSamples then
          .error "bounded chunk context exceeds the content model limit"
        else
          let effectiveChunk := min requestedChunk (kContentMaximumSamples - fixedOverhead)
          if hchunk : effectiveChunk < kPitchHop then .error "bounded chunk core is too small"
          else match checkedAdd effectiveChunk queryTwice with
            | none => .error "bounded segment hard bound is invalid"
            | some hardCore =>
              match (checkedAdd hardCore padTwice).bind (checkedAdd · kPitchHop) with
              | none => .error "bounded segment hard bound is invalid"
              | some hardSegment =>
                if hardSegment > kContentMaximumSamples then
                  .error "bounded segment hard bound is invalid"
                else .ok
                  { query, pad, effectiveChunk, hardCore, hardSegment
                    chunk_pos := lt_of_lt_of_le (by decide) (Nat.le_of_not_lt hchunk) }
      | none => .error "bounded chunk context exceeds the content model limit"
    | _, _ => .error "bounded chunk context exceeds the content model limit"
  | _, _, _ => .error "invalid bounded chunk configuration"

/-- The chunk layout of a conversion. -/
def BoundedConversion.layout {α : Type} [Sample α] (conversion : BoundedConversion α) :
    Except String ChunkLayout :=
  chunkLayout conversion.maxChunkSec conversion.chunkQuerySec conversion.chunkPadSec
    conversion.filtered.sampleCount

/-! ### The samples of a core -/

variable {α : Type} [Sample α] [Zero α]

/-- The zero-fill of a core, in blocks. -/
def appendZeros (rawOutput : RawFloatSpool α) (remaining : ℕ) : Except String (RawFloatSpool α) :=
  if _h : remaining > 0 then do
    let count := min kIoBlockSamples remaining
    let rawOutput ← appendOr rawOutput (List.replicate count 0) "raw synthesis zero-fill failed"
    appendZeros rawOutput (remaining - count)
  else .ok rawOutput
termination_by remaining
decreasing_by
  simp only [kIoBlockSamples]
  omega

/-- The samples that a piece holds for a core, of `coreOutput` samples. -/
def takeCount (piece : List α) (leftContext coreOutput : ℕ) : ℕ :=
  min coreOutput (if piece.length > leftContext then piece.length - leftContext else 0)

/-- The samples of a core join the raw output: what the piece holds of it, then zeros. -/
def appendCore (rawOutput : RawFloatSpool α) (piece : List α) (leftContext coreOutput : ℕ) :
    Except String (RawFloatSpool α) := do
  let take := takeCount piece leftContext coreOutput
  let rawOutput ←
    if take > 0 then
      appendOr rawOutput (slice piece leftContext (leftContext + take))
        "raw synthesis spool append failed"
    else .ok rawOutput
  appendZeros rawOutput (coreOutput - take)

/-- The output samples of a core. -/
def coreSamples (piece : List α) (leftContext coreOutput : ℕ) : List α :=
  let take := takeCount piece leftContext coreOutput
  slice piece leftContext (leftContext + take) ++ List.replicate (coreOutput - take) 0

/-- The zero-fill is one append of zeros. -/
theorem appendZeros_eq_ok {rawOutput t : RawFloatSpool α} {remaining : ℕ} :
    appendZeros rawOutput remaining = .ok t ↔
      rawOutput.append (List.replicate remaining 0) = some t := by
  induction remaining using Nat.strongRecOn generalizing rawOutput with
  | ind remaining ih =>
    rw [appendZeros]
    by_cases h : remaining > 0
    · have hcount : 0 < min kIoBlockSamples remaining := lt_min (by decide) h
      have hsplit : remaining =
          min kIoBlockSamples remaining + (remaining - min kIoBlockSamples remaining) := by omega
      rw [dif_pos h]
      conv_rhs => rw [hsplit, ← List.replicate_append_replicate, RawSampleSpool.append_append]
      rcases happend : rawOutput.append (List.replicate (min kIoBlockSamples remaining) 0) with
        _ | rawOutput'
      · simp only [appendOr, happend]
        exact iff_of_false (fun hc => by cases hc) (by rintro ⟨_, hc, _⟩; cases hc)
      · simp only [appendOr, happend, Option.some.injEq, exists_eq_left']
        exact ih _ (by omega)
    · obtain rfl : remaining = 0 := by omega
      rw [dif_neg h, List.replicate_zero, RawSampleSpool.append_nil, Except.ok.injEq,
        Option.some.injEq]

/-- A core joins the raw output as one block. -/
theorem appendCore_eq_ok {rawOutput t : RawFloatSpool α} {piece : List α}
    {leftContext coreOutput : ℕ} :
    appendCore rawOutput piece leftContext coreOutput = .ok t ↔
      rawOutput.append (coreSamples piece leftContext coreOutput) = some t := by
  simp only [appendCore, coreSamples, RawSampleSpool.append_append]
  by_cases h : takeCount piece leftContext coreOutput > 0
  · rw [if_pos h]
    rcases happend : rawOutput.append (slice piece leftContext
        (leftContext + takeCount piece leftContext coreOutput)) with _ | rawOutput'
    · simp only [appendOr, happend]
      exact iff_of_false (fun hc => by cases hc) (by rintro ⟨_, hc, _⟩; cases hc)
    · simp only [appendOr, happend, Option.some.injEq, exists_eq_left']
      exact appendZeros_eq_ok
  · have hzero : takeCount piece leftContext coreOutput = 0 := by omega
    rw [if_neg h, hzero, Nat.add_zero, slice_self, RawSampleSpool.append_nil]
    simp only [Option.some.injEq, exists_eq_left']
    exact appendZeros_eq_ok

omit [Sample α] in
theorem length_coreSamples (piece : List α) (leftContext coreOutput : ℕ) :
    (coreSamples piece leftContext coreOutput).length = coreOutput := by
  have htake : takeCount piece leftContext coreOutput ≤ coreOutput := min_le_left _ _
  have hinside : takeCount piece leftContext coreOutput = 0 ∨
      leftContext + takeCount piece leftContext coreOutput ≤ piece.length := by
    rw [takeCount]
    split <;> omega
  rw [coreSamples, List.length_append, List.length_replicate]
  rcases hinside with h | h
  · rw [h, Nat.add_zero, slice_self, List.length_nil]
    omega
  · rw [length_slice h]
    omega

/-- The end of the computed branch: a piece joins the raw output at its absolute position, and the
samples of the core are read back. -/
def appendAligned (piece : List α) (leftContext coreStart coreEnd : ℕ)
    (rawOutput : RawFloatSpool α) : Except String (Except String (List α) × RawFloatSpool α) := do
  let outputStart := outputIndex coreStart
  let outputEnd := outputIndex coreEnd
  if rawOutput.sampleCount ≠ outputStart ∨ outputEnd < outputStart then
    .error "bounded synthesis lost absolute output alignment"
  else
    let coreOutput := outputEnd - outputStart
    let rawOutput ← appendCore rawOutput piece leftContext coreOutput
    let committed :=
      match rawOutput.read outputStart coreOutput with
      | some committed => .ok committed
      | none => .error "cannot read completed synthesis block"
    return (committed, rawOutput)

/-! ### One core -/

variable [LE α] [DecidableLE α]

/-- What synthesis is fed for a core. -/
structure SynthInput (α : Type) where
  segment : List α
  f0 : List α
  uv : List Bool
  firstF0 : ℕ

/-- The end of the segment of a core: both contexts and one hop behind the core, at most the end of
the padded clip. -/
def segmentEnd (sourceSamples pad coreEnd : ℕ) : Option ℕ := do
  let virtualSamples ← checkedAdd sourceSamples (u64 (2 * pad))
  let rightContext ← checkedAdd coreEnd (u64 (2 * pad))
  let rightContext ← checkedAdd rightContext kPitchHop
  return min virtualSamples rightContext

/-- The F0 frames and flags of the segment `[coreStart, segmentEnd)`. -/
def f0Input (processedF0 rawF0 : RawFloatSpool α) (coreStart segmentEnd : ℕ) :
    Except String (List α × List Bool × ℕ) :=
  let firstF0 := coreStart / kPitchHop
  let endF0 := min processedF0.sampleCount (segmentEnd / kPitchHop)
  if endF0 ≤ firstF0 then .error "bounded F0 segment is empty"
  else match narrowSize (endF0 - firstF0), narrowInt (endF0 - firstF0) with
    | some f0Size, some _ =>
      match processedF0.read firstF0 f0Size, rawF0.read firstF0 f0Size with
      | some f0, some raw => .ok (f0, raw.map fun x => decide (x ≤ 0), firstF0)
      | _, _ => .error "bounded F0 segment read failed"
    | _, _ => .error "bounded F0 segment exceeds the model range"

/-- The segment of a core with its F0 frames. -/
def synthInput (filtered : RawFloatSpool α) (layout : ChunkLayout)
    (processedF0 rawF0 : RawFloatSpool α) (coreStart coreEnd : ℕ) : Except String (SynthInput α) :=
  match segmentEnd filtered.sampleCount layout.pad coreEnd with
  | none => .error "bounded segment range overflow"
  | some segmentEnd =>
    if segmentEnd ≤ coreStart ∨ segmentEnd - coreStart > layout.hardSegment ∨
        segmentEnd - coreStart > kContentMaximumSamples then
      .error "bounded content segment exceeded its hard bound"
    else match narrowSize (segmentEnd - coreStart), narrowInt (segmentEnd - coreStart) with
      | some segmentSize, some _ => do
        let segment ←
          readReflected filtered filtered.sampleCount layout.pad coreStart segmentSize
        let (f0, uv, firstF0) ← f0Input processedF0 rawF0 coreStart segmentEnd
        return { segment, f0, uv, firstF0 }
      | _, _ => .error "bounded content segment exceeds the model range"

/-- The synthesized piece of a core. -/
def corePiece (conversion : BoundedConversion α) (layout : ChunkLayout)
    (processedF0 rawF0 : RawFloatSpool α) (coreStart coreEnd : ℕ) : Except String (List α) := do
  let input ← synthInput conversion.filtered layout processedF0 rawF0 coreStart coreEnd
  let piece := conversion.synthSegment input.segment input.f0 input.uv input.firstF0
  if piece.isEmpty then .error "bounded chunk synthesis failed"
  else if !piece.all Sample.isFinite then .error "bounded synthesis produced non-finite audio"
  else return piece

/-- `left_output_context`. -/
def leftOutputContext (layout : ChunkLayout) : ℕ := outputIndex layout.pad

/-- The computed branch of a core: the longer output, and the samples read back from it. -/
def coreCompute (conversion : BoundedConversion α) (layout : ChunkLayout)
    (processedF0 rawF0 : RawFloatSpool α) (coreStart coreEnd : ℕ) (rawOutput : RawFloatSpool α) :
    Except String (Except String (List α) × RawFloatSpool α) := do
  let piece ← corePiece conversion layout processedF0 rawF0 coreStart coreEnd
  appendAligned piece (leftOutputContext layout) coreStart coreEnd rawOutput

omit [LE α] [DecidableLE α] in
/-- An aligned output takes the samples of a core, and the same samples are read back. -/
theorem appendAligned_eq_ok {piece : List α} {leftContext coreStart coreEnd : ℕ}
    {rawOutput rawOutput' : RawFloatSpool α} {committed : Except String (List α)} :
    appendAligned piece leftContext coreStart coreEnd rawOutput = .ok (committed, rawOutput') ↔
      (rawOutput.sampleCount = outputIndex coreStart ∧
          outputIndex coreStart ≤ outputIndex coreEnd) ∧
        rawOutput.append (coreSamples piece leftContext
          (outputIndex coreEnd - outputIndex coreStart)) = some rawOutput' ∧
        committed = .ok (coreSamples piece leftContext
          (outputIndex coreEnd - outputIndex coreStart)) := by
  simp only [appendAligned]
  by_cases haligned : rawOutput.sampleCount ≠ outputIndex coreStart ∨
      outputIndex coreEnd < outputIndex coreStart
  · rw [if_pos haligned]
    exact iff_of_false (fun h => by cases h) (fun ⟨h, _⟩ => by omega)
  · rw [if_neg haligned]
    have hstart : rawOutput.sampleCount = outputIndex coreStart ∧
        outputIndex coreStart ≤ outputIndex coreEnd := by omega
    generalize hn : outputIndex coreEnd - outputIndex coreStart = n
    rcases hcore : appendCore rawOutput piece leftContext n with message | t
    · refine iff_of_false (fun h => by cases h) ?_
      rintro ⟨-, happend, -⟩
      rw [appendCore_eq_ok.mpr happend] at hcore
      cases hcore
    · have happend := appendCore_eq_ok.mp hcore
      have hsamples := RawSampleSpool.append_eq_some_iff.mp happend
      have hlength := length_coreSamples piece leftContext n
      have hcount : rawOutput.samples.length = outputIndex coreStart := hstart.1
      have hread : t.read (outputIndex coreStart) n =
          some (coreSamples piece leftContext n) := by
        rw [RawSampleSpool.read_of_le (by rw [hsamples, List.length_append]; omega), hsamples,
          slice_append_right _ _ (by omega), hcount, Nat.sub_self, Nat.add_sub_cancel_left,
          slice_zero_of_length hlength]
      rw [happend]
      change Except.ok (_, t) = _ ↔ _
      simp only [hread, hstart, true_and, Except.ok.injEq, Prod.mk.injEq, Option.some.injEq]
      rw [and_comm, eq_comm (a := committed)]

/-- The computed branch joins the samples of the core to an aligned output and reads the same
samples back. -/
theorem coreCompute_eq_ok {conversion : BoundedConversion α} {layout : ChunkLayout}
    {processedF0 rawF0 : RawFloatSpool α} {coreStart coreEnd : ℕ}
    {rawOutput rawOutput' : RawFloatSpool α} {committed : Except String (List α)} :
    coreCompute conversion layout processedF0 rawF0 coreStart coreEnd rawOutput =
        .ok (committed, rawOutput') ↔
      ∃ piece, corePiece conversion layout processedF0 rawF0 coreStart coreEnd = .ok piece ∧
        (rawOutput.sampleCount = outputIndex coreStart ∧
          outputIndex coreStart ≤ outputIndex coreEnd) ∧
        rawOutput.append (coreSamples piece (leftOutputContext layout)
          (outputIndex coreEnd - outputIndex coreStart)) = some rawOutput' ∧
        committed = .ok (coreSamples piece (leftOutputContext layout)
          (outputIndex coreEnd - outputIndex coreStart)) := by
  rw [coreCompute]
  rcases hpiece : corePiece conversion layout processedF0 rawF0 coreStart coreEnd with
    message | piece
  · exact iff_of_false (fun h => by cases h) (fun ⟨_, h, _⟩ => by cases h)
  · simp only [Except.ok.injEq, exists_eq_left']
    exact appendAligned_eq_ok

/-! ### The loop over cores -/

/-- The name of the checkpoint block of a core. -/
def synthBlockKey (coreStart : ℕ) : String := "synth_" ++ toString coreStart

/-- The check before a saved core is taken. -/
def checkAlignment (rawOutput : RawFloatSpool α) (coreStart coreEnd : ℕ) : Except String Unit :=
  if rawOutput.sampleCount ≠ outputIndex coreStart ∨ outputIndex coreEnd ≤ outputIndex coreStart then
    .error "cached synthesis absolute alignment mismatch"
  else .ok ()

/-- The state of the loop: the planner and the raw output. -/
structure SynthState (α : Type) [Sample α] where
  planner : QuietCorePlanner
  rawOutput : RawFloatSpool α

/-- The state before the first core. -/
def synthStart (sourceSamples : ℕ) (layout : ChunkLayout) : SynthState α where
  planner := .create sourceSamples layout.effectiveChunk layout.query layout.hardCore
    layout.chunk_pos
  rawOutput := .create

variable [FrameEnergy α] [BlockDigest α] [DecidableEq α]

/-- The cached and computed branches of one core. -/
def coreBlock (conversion : BoundedConversion α) (layout : ChunkLayout)
    (processedF0 rawF0 : RawFloatSpool α) (coreStart coreEnd : ℕ) (rawOutput : RawFloatSpool α) :
    CheckpointM α (RawFloatSpool α) :=
  cachedBlock (synthBlockKey coreStart) coreStart (outputIndex coreEnd - outputIndex coreStart)
    (checkAlignment rawOutput coreStart coreEnd)
    (fun cached => appendOr rawOutput cached "cached synthesis spool append failed")
    (coreCompute conversion layout processedF0 rawF0 coreStart coreEnd rawOutput)

/-- The synthesis loop of `convert_file_bounded`. -/
def synthesisLoop (conversion : BoundedConversion α) (layout : ChunkLayout)
    (processedF0 rawF0 : RawFloatSpool α) (s : SynthState α) : CheckpointM α (SynthState α) :=
  match _hnext : s.planner.next conversion.filtered with
  | .error message => throw (.failed message)
  | .ok none => return s
  | .ok (some ((coreStart, coreEnd), planner)) => do
    let rawOutput ← coreBlock conversion layout processedF0 rawF0 coreStart coreEnd s.rawOutput
    synthesisLoop conversion layout processedF0 rawF0 { planner, rawOutput }
termination_by s.planner.samples - s.planner.previous
decreasing_by
  have hnext := QuietCorePlanner.next_spec _hnext
  omega

/-- The spools of a completed conversion. -/
structure Converted (α : Type) [Sample α] where
  rawF0 : RawFloatSpool α
  processedF0 : RawFloatSpool α
  rawOutput : RawFloatSpool α

/-- A check that fails with a message. -/
def require (p : Prop) [Decidable p] (message : String) : Except String Unit :=
  if p then .ok () else .error message

/-- A result that fails with a message. -/
def orFail {β : Type} (x : Option β) (message : String) : Except String β :=
  match x with
  | some b => .ok b
  | none => .error message

theorem bind_eq_ok {β γ : Type} {x : Except String β} {f : β → Except String γ} {c : γ} :
    (x >>= f) = .ok c ↔ ∃ b, x = .ok b ∧ f b = .ok c := by
  cases x <;> simp [bind, Except.bind]

theorem require_eq_ok {p : Prop} [Decidable p] {message : String} {u : Unit} :
    require p message = .ok u ↔ p := by
  by_cases h : p <;> simp [require, h]

theorem orFail_eq_ok {β : Type} {x : Option β} {message : String} {b : β} :
    orFail x message = .ok b ↔ x = some b := by
  cases x <;> simp [orFail]

/-- `convert_file_bounded`, up to the raw output samples. -/
def convertFileBounded (conversion : BoundedConversion α) : CheckpointM α (Converted α) := do
  let sourceSamples := conversion.filtered.sampleCount
  let f0Context := f0ContextSamples conversion.f0Method
  let f0HardInput := u64 (kF0CoreSamples + u64 (2 * f0Context))
  .ofExcept (require (2 ≤ sourceSamples) "invalid bounded WAV sample count")
  let scaledOutput ← .ofExcept
    (orFail (checkedMul sourceSamples kOutputSampleRate) "bounded output length overflow")
  let layout ← .ofExcept conversion.layout
  let (rawF0, maximumF0Input) ←
    buildRawF0 conversion.filtered sourceSamples layout.pad f0Context conversion.extractF0
  let processedF0 ← .ofExcept (conversion.processF0 rawF0 layout.pad sourceSamples)
  .ofExcept (require (maximumF0Input ≠ 0 ∧ maximumF0Input ≤ f0HardInput)
    "bounded F0 resource observation exceeded its profile")
  let s ← synthesisLoop conversion layout processedF0 rawF0 (synthStart sourceSamples layout)
  .ofExcept (require (s.rawOutput.sampleCount = scaledOutput / kInputSampleRate)
    "bounded synthesis output length mismatch")
  return { rawF0, processedF0, rawOutput := s.rawOutput }

end Resonantia.Pipeline
