import Mathlib.Data.Rat.Floor
import Resonantia.Pipeline.SpoolLoops

/-!
# Matching the loudness of the source

The output takes over the loudness of the source: RMS values are recorded every half second, a value
between two records is interpolated, and every sample is multiplied by a gain that mixes both
envelopes. `change_rms_envelope` holds the signals in memory. `write_final_output` reads both from
spools, keeps the records in spools of their own, caches the pair of records around a position, and
hands the samples to the WAV writer block by block. The sizes of the legacy function are `int`; its
callers refuse longer signals.

Arithmetic is exact here, with `std::sqrt` and `std::pow` as parameters.

## Main definitions

* `Pipeline.rmsEnv`, `Pipeline.changeRmsEnvelope`: the legacy functions.
* `Pipeline.computeRmsRecords`, `Pipeline.EnvelopeCursor`, `Pipeline.writeFinalOutput`: the bounded
  ones.

## Main results

* `Pipeline.exists_computeRmsRecords`: the records are those of the legacy envelope.
* `Pipeline.EnvelopeCursor.exists_value`: a value of the cursor is that of the legacy envelope.
* `Pipeline.writeFinalOutput_eq_changeRmsEnvelope`: the writer gets the samples of the legacy
  function.
-/

namespace Resonantia.Pipeline

open Slices Io BlockLoop

variable {K : Type} [Field K] [LinearOrder K] [FloorSemiring K]

/-! ### The legacy functions -/

/-- `e[f]` in `rms_env`. -/
def rmsFrame (sqrt : K → K) (y : List K) (hop frame f : ℕ) : K :=
  let center := f * hop
  let s := center - frame / 2
  let en := min y.length (center + frame / 2)
  let acc := (List.range' s (en - s)).foldl (fun acc k => acc + y.getD k 0 * y.getD k 0) 0
  sqrt (acc / (frame : K))

/-- `r[i]` in `rms_env`, from the records `e`. -/
def envelopeAt (e : List K) (outLen i : ℕ) : K :=
  let nf := e.length
  let pos : K := max 0 (min (((i : K) + 1 / 2) * (nf : K) / (outLen : K) - 1 / 2) ((nf - 1 : ℕ) : K))
  let i0 := ⌊pos⌋₊
  let fr := pos - (i0 : K)
  let v0 := e.getD (min i0 (nf - 1)) 0
  let v1 := e.getD (min (i0 + 1) (nf - 1)) 0
  v0 + (v1 - v0) * fr

/-- The records of `rms_env`. -/
def rmsRecords (sqrt : K → K) (y : List K) (hop frame : ℕ) : List K :=
  (List.range (y.length / hop + 1)).map (rmsFrame sqrt y hop frame)

/-- `rms_env`. -/
def rmsEnv (sqrt : K → K) (y : List K) (sr outLen : ℕ) : List K :=
  let hop := max 1 (sr / 2)
  let frame := hop * 2
  (List.range outLen).map (envelopeAt (rmsRecords sqrt y hop frame) outLen)

/-- The gain of a sample. -/
def rmsGain (pow : K → K → K) (rate r1 r2 : K) : K :=
  let denom := max r2 (1 / 10 ^ 6)
  pow r1 (1 - rate) * pow denom (rate - 1)

/-- `change_rms_envelope`. -/
def changeRmsEnvelope (sqrt : K → K) (pow : K → K → K) (src : List K) (srcSr : ℕ) (out : List K)
    (rate : K) : List K :=
  let L := out.length
  if L = 0 then out
  else
    let r1 := rmsEnv sqrt src srcSr L
    let r2 := rmsEnv sqrt out 40000 L
    out.zipIdx.map fun sample =>
      sample.1 * rmsGain pow rate (r1.getD sample.2 0) (r2.getD sample.2 0)

/-! ### The bounded functions -/

variable [Sample K]

/-- A pass of the loop of `compute_rms_records`. -/
def appendRecord (sqrt : K → K) (audio : RawFloatSpool K) (hop frame : ℕ)
    (records : RawFloatSpool K) (index : ℕ) : Except String (RawFloatSpool K) := do
  let center := index * hop
  let left := frame / 2
  let start := if center ≥ left then center - left else 0
  let stop := center + min (frame - left) (audio.sampleCount - center)
  require (¬stop ≤ start) "invalid RMS record range"
  let count ← orFail (narrowSize (stop - start)) "RMS source read failed"
  let samples ← readSpool audio start count "RMS source read failed"
  let sum := samples.foldl (fun sum value => sum + value * value) 0
  let rms := sqrt (sum / (frame : K))
  require (Sample.isFinite rms = true) "RMS record append failed"
  appendSpool records [rms] "RMS record append failed"

/-- `compute_rms_records`. -/
def computeRmsRecords (sqrt : K → K) (audio : RawFloatSpool K) (hop frame : ℕ) :
    Except String (RawFloatSpool K) := do
  require (¬(hop = 0 ∨ frame = 0 ∨ audio.sampleCount = 0)) "failed to initialize RMS record spool"
  let frames := audio.sampleCount / hop + 1
  let records ← (List.range frames).foldlM (appendRecord sqrt audio hop frame) .create
  require (records.sampleCount = frames) "RMS record count mismatch"
  return records

/-- `EnvelopeCursor`. -/
structure EnvelopeCursor (K : Type) [Sample K] where
  records : RawFloatSpool K
  outputSamples : ℕ
  cachedFirst : ℕ
  cached : List K

namespace EnvelopeCursor

/-- A cursor in front of its first lookup. -/
def atStart (records : RawFloatSpool K) (outputSamples : ℕ) : EnvelopeCursor K where
  records := records
  outputSamples := outputSamples
  cachedFirst := uint64Max
  cached := []

/-- The position of an output sample among the records. -/
def position (cursor : EnvelopeCursor K) (outputIndex : ℕ) : K :=
  max 0 (min (((outputIndex : K) + 1 / 2) * (cursor.records.sampleCount : K) /
    (cursor.outputSamples : K) - 1 / 2) ((cursor.records.sampleCount - 1 : ℕ) : K))

/-- The number of records that a lookup reads from `first` on. -/
def readCount (cursor : EnvelopeCursor K) (first : ℕ) : ℕ :=
  if first + 1 < cursor.records.sampleCount then 2 else 1

/-- The cursor with the records from `first` on in its cache. -/
def refill (cursor : EnvelopeCursor K) (first : ℕ) : Except String (EnvelopeCursor K) :=
  if first ≠ cursor.cachedFirst then do
    let cached ← readSpool cursor.records first (cursor.readCount first)
      "RMS envelope record read failed"
    return { cursor with cachedFirst := first, cached := cached }
  else return cursor

/-- `value`. -/
def value (cursor : EnvelopeCursor K) (outputIndex : ℕ) :
    Except String (K × EnvelopeCursor K) := do
  require (¬(cursor.records.sampleCount = 0 ∨ outputIndex ≥ cursor.outputSamples))
    "invalid RMS envelope lookup"
  let position := cursor.position outputIndex
  let first := ⌊position⌋₊
  let cursor ← cursor.refill first
  let fraction := position - (first : K)
  let left := cursor.cached.getD 0 0
  let right := if cursor.cached.length > 1 then cursor.cached.getD 1 0 else cursor.cached.getD 0 0
  let result := left + (right - left) * fraction
  require (Sample.isFinite result = true) "RMS envelope is not finite"
  return (result, cursor)

end EnvelopeCursor

/-- `AtomicWavStreamWriter` as `write_final_output` sees it, over storage that works: the samples
that it has taken, of an expected number. -/
structure SampleWriter (K : Type) where
  expectedSamples : ℕ
  written : List K

/-- `append`. -/
def SampleWriter.append (writer : SampleWriter K) (samples : List K) : Option (SampleWriter K) :=
  if samples = [] then some writer
  else if samples.any (fun value => !Sample.isFinite value) then none
  else if writer.written.length + samples.length > writer.expectedSamples then none
  else some { writer with written := writer.written ++ samples }

/-- Both cursors and the samples of a block. -/
structure GainState (K : Type) [Sample K] where
  sourceEnvelope : EnvelopeCursor K
  outputEnvelope : EnvelopeCursor K
  block : List K

/-- A sample of a block at its index. -/
def gainStep (pow : K → K → K) (rate : K) (state : GainState K) (sample : K × ℕ) :
    Except String (GainState K) := do
  let (sourceRms, sourceEnvelope) ← state.sourceEnvelope.value sample.2
  let (outputRms, outputEnvelope) ← state.outputEnvelope.value sample.2
  let denominator := max outputRms (1 / 10 ^ 6)
  let value := sample.1 * (pow sourceRms (1 - rate) * pow denominator (rate - 1))
  require (Sample.isFinite value = true) "global RMS produced non-finite audio"
  return { sourceEnvelope := sourceEnvelope, outputEnvelope := outputEnvelope,
           block := state.block ++ [value] }

/-- Both cursors and the writer. -/
structure OutputState (K : Type) [Sample K] where
  sourceEnvelope : EnvelopeCursor K
  outputEnvelope : EnvelopeCursor K
  writer : SampleWriter K

/-- The samples of a block, behind the mix rate. -/
def gainBlock (pow : K → K → K) (rate : K) (offset : ℕ) (state : GainState K) :
    Except String (GainState K) :=
  if rate < 1 then
    (state.block.zipIdx offset).foldlM (gainStep pow rate) { state with block := [] }
  else return state

/-- A block of `write_final_output`. -/
def outputBlock (pow : K → K → K) (rawOutput : RawFloatSpool K) (rate : K) (offset count : ℕ)
    (state : OutputState K) : Except String (OutputState K) := do
  let block ← readSpool rawOutput offset count "raw synthesis spool read failed"
  let gained ← gainBlock pow rate offset
    { sourceEnvelope := state.sourceEnvelope, outputEnvelope := state.outputEnvelope,
      block := block }
  let writer ← orFail (state.writer.append gained.block) "incremental WAV append failed"
  return { sourceEnvelope := gained.sourceEnvelope, outputEnvelope := gained.outputEnvelope,
           writer := writer }

/-- The RMS records of both signals, which a mix rate of one does not need. -/
def mixRecords (sqrt : K → K) (filteredSource rawOutput : RawFloatSpool K) (rate : K) :
    Except String (RawFloatSpool K × RawFloatSpool K) :=
  if rate < 1 then do
    let sourceRms ← computeRmsRecords sqrt filteredSource 8000 16000
    let outputRms ← computeRmsRecords sqrt rawOutput 20000 40000
    return (sourceRms, outputRms)
  else return (.create, .create)

/-- `write_final_output`. -/
def writeFinalOutput (sqrt : K → K) (pow : K → K → K) (filteredSource rawOutput : RawFloatSpool K)
    (rate : K) (writer : SampleWriter K) : Except String (SampleWriter K) := do
  require (rawOutput.sampleCount = writer.expectedSamples)
    "raw synthesis length does not match the WAV contract"
  let (sourceRms, outputRms) ← mixRecords sqrt filteredSource rawOutput rate
  let state ← overBlocks kIoBlockSamples rawOutput.sampleCount (outputBlock pow rawOutput rate) 0
    { sourceEnvelope := .atStart sourceRms rawOutput.sampleCount
      outputEnvelope := .atStart outputRms rawOutput.sampleCount
      writer := writer }
  require (state.writer.written.length = state.writer.expectedSamples)
    "incremental WAV sample count mismatch"
  return state.writer

/-! ### The records -/

omit [LinearOrder K] [FloorSemiring K] [Sample K] in
/-- A loop over the indices of a range is a fold of the slice. -/
theorem foldl_slice (f : K → K → K) (acc : K) {l : List K} {s e : ℕ} (he : e ≤ l.length) :
    (slice l s e).foldl f acc =
      (List.range' s (e - s)).foldl (fun acc k => f acc (l.getD k 0)) acc := by
  have hslice : slice l s e = (List.range' s (e - s)).map fun k => l.getD k 0 := by
    refine List.ext_getElem? fun i => ?_
    rw [getElem?_slice, List.getElem?_map]
    by_cases hi : s + i < e
    · rw [if_pos hi, List.getElem?_range' (by omega), Nat.one_mul]
      simp [List.getD_eq_getElem?_getD, show s + i < l.length by omega]
    · rw [if_neg hi, List.getElem?_eq_none (by rw [List.length_range']; omega)]
      rfl
  rw [hslice, List.foldl_map]

omit [LinearOrder K] [FloorSemiring K] in
/-- A record is one append. -/
theorem exists_appendRecord (hfinite : ∀ x : K, Sample.isFinite x = true) (sqrt : K → K)
    (audio records : RawFloatSpool K) {hop index : ℕ} (hhop : 2 ≤ hop)
    (haudio : audio.samples ≠ []) (hindex : index ≤ audio.samples.length / hop)
    (hrecords : records.samples.length = index) :
    ∃ t, appendRecord sqrt audio hop (hop * 2) records index = .ok t ∧
      t.samples = records.samples ++ [rmsFrame sqrt audio.samples hop (hop * 2) index] := by
  have hpos : 0 < audio.samples.length := List.length_pos_of_ne_nil haudio
  have hbounded := audio.bounded
  have hcenter : index * hop ≤ audio.samples.length :=
    (Nat.mul_le_mul_right hop hindex).trans (Nat.div_mul_le_self _ _)
  have hhalf : hop * 2 / 2 = hop := Nat.mul_div_cancel hop (by decide)
  have hstart : (if index * hop ≥ hop then index * hop - hop else 0) = index * hop - hop := by
    split <;> omega
  have hstop : index * hop + min (hop * 2 - hop) (audio.samples.length - index * hop) =
      min audio.samples.length (index * hop + hop) := by omega
  have hcount : index ≤ audio.samples.length / 2 :=
    hindex.trans (Nat.div_le_div_left hhop (by decide))
  have hfits : (records.samples.length + [rmsFrame sqrt audio.samples hop (hop * 2) index].length) *
      4 ≤ offMax := by
    rw [hrecords, List.length_singleton]
    omega
  obtain ⟨t, ht, hsamples⟩ := RawSampleSpool.append_of_finite records
    [rmsFrame sqrt audio.samples hop (hop * 2) index] (fun x _ => hfinite x) hfits
  refine ⟨t, ?_, hsamples⟩
  rw [appendRecord, RawSampleSpool.sampleCount]
  dsimp only
  rw [hhalf, hstart, hstop, require, if_pos (by omega),
    narrowSize_of_lt (by rw [offMax] at hbounded; omega)]
  change (readSpool audio (index * hop - hop) _ _ >>= fun samples => _) = _
  rw [readSpool_of_le _ (by decide) (by omega),
    Nat.add_sub_cancel' (show index * hop - hop ≤ min audio.samples.length (index * hop + hop) by
      omega)]
  change (require _ _ >>= fun _ => appendSpool records _ _) = _
  rw [require, if_pos (hfinite _), foldl_slice _ _ (Nat.min_le_left _ _)]
  refine appendSpool_eq_ok.2 ?_
  rw [rmsFrame, hhalf] at ht
  exact ht

omit [LinearOrder K] [FloorSemiring K] in
/-- The records are those of the legacy envelope. -/
theorem exists_computeRmsRecords (hfinite : ∀ x : K, Sample.isFinite x = true) (sqrt : K → K)
    (audio : RawFloatSpool K) {hop : ℕ} (hhop : 2 ≤ hop) (haudio : audio.samples ≠ []) :
    ∃ t, computeRmsRecords sqrt audio hop (hop * 2) = .ok t ∧
      t.samples = rmsRecords sqrt audio.samples hop (hop * 2) := by
  have hpos : 0 < audio.samples.length := List.length_pos_of_ne_nil haudio
  have hloop (n : ℕ) (hn : n ≤ audio.samples.length / hop + 1) :
      ∃ t, (List.range n).foldlM (appendRecord sqrt audio hop (hop * 2)) .create = .ok t ∧
        t.samples = (List.range n).map (rmsFrame sqrt audio.samples hop (hop * 2)) := by
    induction n with
    | zero => exact ⟨.create, rfl, rfl⟩
    | succ n ih =>
      obtain ⟨records, hrun, hrecords⟩ := ih (by omega)
      obtain ⟨t, hstep, ht⟩ := exists_appendRecord hfinite sqrt audio records hhop haudio
        (show n ≤ audio.samples.length / hop by omega)
        (by rw [hrecords, List.length_map, List.length_range])
      refine ⟨t, ?_, ?_⟩
      · rw [List.range_succ, List.foldlM_append, hrun]
        change (appendRecord sqrt audio hop (hop * 2) records n >>= fun records => .ok records) = _
        rw [hstep]
        rfl
      · rw [ht, hrecords, List.range_succ, List.map_append, List.map_singleton]
  obtain ⟨t, hrun, ht⟩ := hloop _ (Nat.le_refl _)
  refine ⟨t, ?_, ht⟩
  rw [computeRmsRecords, RawSampleSpool.sampleCount, require, if_pos (by omega)]
  change (List.foldlM (appendRecord sqrt audio hop (hop * 2)) .create (List.range _) >>=
    fun records : RawFloatSpool K => require (records.sampleCount = _) _ >>= fun _ => _) = _
  rw [hrun]
  change (require (t.sampleCount = _) _ >>= fun _ => _) = _
  rw [require, if_pos (by
    rw [RawSampleSpool.sampleCount, ht, List.length_map, List.length_range])]
  rfl

/-! ### The envelope -/

namespace EnvelopeCursor

/-- The cache holds the records from its first index on, if there is one. -/
def Valid (cursor : EnvelopeCursor K) : Prop :=
  cursor.cachedFirst ≠ uint64Max →
    cursor.cached = slice cursor.records.samples cursor.cachedFirst
      (cursor.cachedFirst + cursor.readCount cursor.cachedFirst)

/-- Every record that a lookup reads is inside the list. -/
theorem floor_position_add_readCount_le [IsStrictOrderedRing K] (cursor : EnvelopeCursor K) (i : ℕ)
    (hrecords : cursor.records.samples ≠ []) :
    ⌊cursor.position i⌋₊ + cursor.readCount ⌊cursor.position i⌋₊ ≤
      cursor.records.samples.length := by
  have hpos : 0 < cursor.records.samples.length := List.length_pos_of_ne_nil hrecords
  have hle : ⌊cursor.position i⌋₊ ≤ cursor.records.samples.length - 1 := by
    refine Nat.floor_le_of_le (max_le ?_ (min_le_right _ _))
    exact Nat.cast_nonneg _
  rw [readCount, RawSampleSpool.sampleCount]
  split <;> omega

omit [FloorSemiring K] [LinearOrder K] [Field K] in
/-- The cache behind a lookup, whether it was filled or not. -/
theorem exists_refill {cursor : EnvelopeCursor K} {first : ℕ} (hvalid : cursor.Valid)
    (hread : first + cursor.readCount first ≤ cursor.records.samples.length) :
    ∃ next, cursor.refill first = .ok next ∧ next.cachedFirst = first ∧
      next.cached = slice cursor.records.samples first (first + cursor.readCount first) ∧
      next.records = cursor.records ∧ next.outputSamples = cursor.outputSamples := by
  have hlength := cursor.records.length_le
  rw [refill]
  by_cases hnew : first ≠ cursor.cachedFirst
  · rw [if_pos hnew, readSpool_of_le _ (by decide) hread]
    exact ⟨_, rfl, rfl, rfl, rfl, rfl⟩
  · rw [if_neg hnew]
    rw [not_not] at hnew
    refine ⟨cursor, rfl, hnew.symm, ?_, rfl, rfl⟩
    rw [hnew]
    refine hvalid ?_
    rw [← hnew, uint64Max]
    omega

/-- **A value of the cursor is that of the legacy envelope.** -/
theorem exists_value [IsStrictOrderedRing K] (hfinite : ∀ x : K, Sample.isFinite x = true)
    {cursor : EnvelopeCursor K} {i : ℕ} (hvalid : cursor.Valid)
    (hrecords : cursor.records.samples ≠ []) (hi : i < cursor.outputSamples) :
    ∃ next, cursor.value i =
        .ok (envelopeAt cursor.records.samples cursor.outputSamples i, next) ∧
      next.records = cursor.records ∧ next.outputSamples = cursor.outputSamples ∧ next.Valid := by
  have hpos : 0 < cursor.records.samples.length := List.length_pos_of_ne_nil hrecords
  have hread := floor_position_add_readCount_le cursor i hrecords
  have hcount : 0 < cursor.readCount ⌊cursor.position i⌋₊ := by
    rw [readCount]
    split <;> decide
  obtain ⟨next, hnext, hfirst, hcached, hrec, hout⟩ := exists_refill hvalid hread
  have hleft : next.cached.getD 0 0 =
      cursor.records.samples.getD (min ⌊cursor.position i⌋₊ (cursor.records.samples.length - 1))
        0 := by
    rw [hcached, List.getD_eq_getElem?_getD, getElem?_slice, if_pos (by omega), Nat.add_zero,
      min_eq_left (by omega), ← List.getD_eq_getElem?_getD]
  have hright : (if next.cached.length > 1 then next.cached.getD 1 0 else next.cached.getD 0 0) =
      cursor.records.samples.getD
        (min (⌊cursor.position i⌋₊ + 1) (cursor.records.samples.length - 1)) 0 := by
    rw [hleft, hcached, length_slice hread, Nat.add_sub_cancel_left]
    have htwo : cursor.readCount ⌊cursor.position i⌋₊ =
        if ⌊cursor.position i⌋₊ + 1 < cursor.records.samples.length then 2 else 1 := rfl
    by_cases hmore : ⌊cursor.position i⌋₊ + 1 < cursor.records.samples.length
    · rw [if_pos hmore] at htwo
      rw [htwo, if_pos (by decide), List.getD_eq_getElem?_getD, getElem?_slice, if_pos (by omega),
        min_eq_left (by omega), ← List.getD_eq_getElem?_getD]
    · rw [if_neg hmore] at htwo
      rw [htwo, if_neg (by decide), min_eq_left (by omega), min_eq_right (by omega)]
      congr 1
      omega
  have hresult : next.cached.getD 0 0 +
      ((if next.cached.length > 1 then next.cached.getD 1 0 else next.cached.getD 0 0) -
        next.cached.getD 0 0) * (cursor.position i - (⌊cursor.position i⌋₊ : K)) =
          envelopeAt cursor.records.samples cursor.outputSamples i := by
    rw [hright, hleft]
    rfl
  refine ⟨next, ?_, hrec, hout, fun _ => ?_⟩
  · rw [value, require, if_pos (by rw [RawSampleSpool.sampleCount]; omega)]
    change (cursor.refill ⌊cursor.position i⌋₊ >>= fun next => _) = _
    rw [hnext]
    change (require _ _ >>= fun _ => _) = _
    rw [require, if_pos (hfinite _), ← hresult]
    rfl
  · rw [hcached, hfirst, hrec, readCount, readCount, hrec]

omit [Field K] [LinearOrder K] [FloorSemiring K] in
theorem valid_atStart (records : RawFloatSpool K) (outputSamples : ℕ) :
    (atStart records outputSamples).Valid :=
  fun h => absurd rfl h

end EnvelopeCursor

/-! ### The blocks -/

/-- Cursors over the records of both signals, for an output of `L` samples. -/
structure Cursors (sourceRecords outputRecords : List K) (L : ℕ)
    (sourceEnvelope outputEnvelope : EnvelopeCursor K) : Prop where
  source_valid : sourceEnvelope.Valid
  source_records : sourceEnvelope.records.samples = sourceRecords
  source_samples : sourceEnvelope.outputSamples = L
  output_valid : outputEnvelope.Valid
  output_records : outputEnvelope.records.samples = outputRecords
  output_samples : outputEnvelope.outputSamples = L

/-- An output sample with its gain. -/
def gained (pow : K → K → K) (rate : K) (sourceRecords outputRecords : List K) (L : ℕ)
    (sample : K × ℕ) : K :=
  sample.1 * rmsGain pow rate (envelopeAt sourceRecords L sample.2)
    (envelopeAt outputRecords L sample.2)

section Blocks

variable [IsStrictOrderedRing K] (hfinite : ∀ x : K, Sample.isFinite x = true) {pow : K → K → K}
  {rate : K} {sourceRecords outputRecords : List K} {L : ℕ} (hsource : sourceRecords ≠ [])
  (houtput : outputRecords ≠ [])

include hfinite hsource houtput

/-- The samples of a block get their gains. -/
theorem exists_foldlM_gainStep (samples : List (K × ℕ)) (hsamples : ∀ sample ∈ samples, sample.2 < L)
    (state : GainState K)
    (hstate : Cursors sourceRecords outputRecords L state.sourceEnvelope state.outputEnvelope) :
    ∃ next, samples.foldlM (gainStep pow rate) state = .ok next ∧
      next.block = state.block ++ samples.map (gained pow rate sourceRecords outputRecords L) ∧
      Cursors sourceRecords outputRecords L next.sourceEnvelope next.outputEnvelope := by
  induction samples generalizing state with
  | nil => exact ⟨state, rfl, (List.append_nil _).symm, hstate⟩
  | cons sample samples ih =>
    have hi := hsamples sample List.mem_cons_self
    obtain ⟨source, hsourceValue, hsourceRecords, hsourceSamples, hsourceValid⟩ :=
      EnvelopeCursor.exists_value hfinite hstate.source_valid (hstate.source_records ▸ hsource)
        (hstate.source_samples ▸ hi)
    obtain ⟨output, houtputValue, houtputRecords, houtputSamples, houtputValid⟩ :=
      EnvelopeCursor.exists_value hfinite hstate.output_valid (hstate.output_records ▸ houtput)
        (hstate.output_samples ▸ hi)
    rw [hstate.source_records, hstate.source_samples] at hsourceValue
    rw [hstate.output_records, hstate.output_samples] at houtputValue
    have hstep : gainStep pow rate state sample =
        .ok { sourceEnvelope := source, outputEnvelope := output,
              block := state.block ++ [gained pow rate sourceRecords outputRecords L sample] } := by
      rw [gainStep, hsourceValue]
      change (state.outputEnvelope.value sample.2 >>= fun _ => _) = _
      rw [houtputValue]
      change (require _ _ >>= fun _ => _) = _
      rw [require, if_pos (hfinite _)]
      rfl
    obtain ⟨next, hrun, hblock, hnext⟩ := ih
      (fun sample hsample => hsamples sample (List.mem_cons_of_mem _ hsample))
      { sourceEnvelope := source, outputEnvelope := output,
        block := state.block ++ [gained pow rate sourceRecords outputRecords L sample] }
      ⟨hsourceValid, hsourceRecords ▸ hstate.source_records,
        hsourceSamples.trans hstate.source_samples, houtputValid,
        houtputRecords ▸ hstate.output_records, houtputSamples.trans hstate.output_samples⟩
    refine ⟨next, ?_, ?_, hnext⟩
    · rw [List.foldlM_cons, hstep]
      exact hrun
    · rw [hblock, List.map_cons, List.append_assoc]
      rfl

end Blocks

omit [Field K] [LinearOrder K] [FloorSemiring K] in
/-- The writer takes finite samples that it expects. -/
theorem exists_append (hfinite : ∀ x : K, Sample.isFinite x = true) (writer : SampleWriter K)
    {samples : List K} (h : writer.written.length + samples.length ≤ writer.expectedSamples) :
    ∃ next, writer.append samples = some next ∧ next.written = writer.written ++ samples ∧
      next.expectedSamples = writer.expectedSamples := by
  have hall : samples.any (fun value => !Sample.isFinite value) = false := by
    rw [List.any_eq_false]
    intro value _
    rw [hfinite]
    decide
  by_cases hnil : samples = []
  · exact ⟨writer, if_pos hnil, by rw [hnil, List.append_nil], rfl⟩
  · rw [SampleWriter.append, if_neg hnil, hall, if_neg Bool.false_ne_true, if_neg (not_lt.2 h)]
    exact ⟨_, rfl, rfl, rfl⟩

omit [Field K] [LinearOrder K] [FloorSemiring K] [Sample K] in
theorem zipIdx_slice (l : List K) (s e : ℕ) : (slice l s e).zipIdx s = slice l.zipIdx s e := by
  refine List.ext_getElem? fun i => ?_
  rw [List.getElem?_zipIdx, getElem?_slice, getElem?_slice, List.getElem?_zipIdx]
  split
  · rw [Nat.zero_add]
  · rfl

/-- The output behind a mix rate, from the records of both signals. -/
def mixed (pow : K → K → K) (rate : K) (sourceRecords outputRecords out : List K) : List K :=
  if rate < 1 then out.zipIdx.map (gained pow rate sourceRecords outputRecords out.length) else out

omit [Sample K] in
theorem length_mixed (pow : K → K → K) (rate : K) (sourceRecords outputRecords out : List K) :
    (mixed pow rate sourceRecords outputRecords out).length = out.length := by
  rw [mixed]
  split
  · rw [List.length_map, List.length_zipIdx]
  · rfl

/-- What has been written up to an offset. -/
structure Written (pow : K → K → K) (rate : K) (sourceRecords outputRecords out : List K)
    (offset : ℕ) (state : OutputState K) : Prop where
  cursors : rate < 1 →
    Cursors sourceRecords outputRecords out.length state.sourceEnvelope state.outputEnvelope
  written : state.writer.written =
    slice (mixed pow rate sourceRecords outputRecords out) 0 offset
  expected : state.writer.expectedSamples = out.length

/-- A block hands its samples to the writer. -/
theorem exists_outputBlock [IsStrictOrderedRing K] (hfinite : ∀ x : K, Sample.isFinite x = true)
    {pow : K → K → K} {rate : K} {sourceRecords outputRecords : List K}
    (hrecords : rate < 1 → sourceRecords ≠ [] ∧ outputRecords ≠ []) (rawOutput : RawFloatSpool K)
    {offset count : ℕ} {state : OutputState K} (hle : offset + count ≤ rawOutput.samples.length)
    (hstate : Written pow rate sourceRecords outputRecords rawOutput.samples offset state) :
    ∃ next, outputBlock pow rawOutput rate offset count state = .ok next ∧
      Written pow rate sourceRecords outputRecords rawOutput.samples (offset + count) next := by
  -- The samples of the block are a slice of the mixed output.
  obtain ⟨gainedState, hrun, hblock, hcursors⟩ : ∃ gainedState : GainState K,
      gainBlock pow rate offset
          { sourceEnvelope := state.sourceEnvelope, outputEnvelope := state.outputEnvelope,
            block := slice rawOutput.samples offset (offset + count) } = .ok gainedState ∧
        gainedState.block = slice (mixed pow rate sourceRecords outputRecords rawOutput.samples)
          offset (offset + count) ∧
        (rate < 1 → Cursors sourceRecords outputRecords rawOutput.samples.length
          gainedState.sourceEnvelope gainedState.outputEnvelope) := by
    by_cases hrate : rate < 1
    · obtain ⟨hsource, houtput⟩ := hrecords hrate
      have hindices (sample : K × ℕ)
          (hsample : sample ∈ slice rawOutput.samples.zipIdx offset (offset + count)) :
          sample.2 < rawOutput.samples.length := by
        have hmem := List.mem_zipIdx (mem_of_mem_slice hsample)
        omega
      obtain ⟨next, hrun, hblock, hnext⟩ := exists_foldlM_gainStep hfinite hsource houtput
        (slice rawOutput.samples.zipIdx offset (offset + count)) hindices
        { sourceEnvelope := state.sourceEnvelope, outputEnvelope := state.outputEnvelope,
          block := [] } (hstate.cursors hrate)
      refine ⟨next, ?_, ?_, fun _ => hnext⟩
      · rw [gainBlock, if_pos hrate, zipIdx_slice, hrun]
      · rw [hblock, mixed, if_pos hrate, map_slice]
        rfl
    · refine ⟨_, if_neg hrate, ?_, fun h => absurd h hrate⟩
      rw [mixed, if_neg hrate]
  have hlength : (slice (mixed pow rate sourceRecords outputRecords rawOutput.samples) offset
      (offset + count)).length = count := by
    rw [length_slice (by rw [length_mixed]; exact hle), Nat.add_sub_cancel_left]
  have hwritten : state.writer.written.length = offset := by
    rw [hstate.written, length_slice (by rw [length_mixed]; omega), Nat.sub_zero]
  obtain ⟨writer, happend, hsamples, hexpected⟩ := exists_append hfinite state.writer
    (show state.writer.written.length + gainedState.block.length ≤ _ by
      rw [hwritten, hblock, hlength, hstate.expected]
      exact hle)
  refine ⟨{ sourceEnvelope := gainedState.sourceEnvelope
            outputEnvelope := gainedState.outputEnvelope, writer := writer }, ?_,
    ⟨hcursors, ?_, hexpected.trans hstate.expected⟩⟩
  · rw [outputBlock, readSpool_of_le _ (by decide) hle]
    change (gainBlock _ _ _ _ >>= fun _ => _) = _
    rw [hrun]
    change (orFail (state.writer.append gainedState.block) _ >>= fun _ => _) = _
    rw [happend]
    rfl
  · rw [hsamples, hstate.written, hblock, slice_append_slice _ (Nat.zero_le _)
      (Nat.le_add_right _ _)]

/-! ### The output -/

omit [LinearOrder K] [FloorSemiring K] [Sample K] in
theorem rmsRecords_ne_nil (sqrt : K → K) (y : List K) (hop frame : ℕ) :
    rmsRecords sqrt y hop frame ≠ [] := by
  rw [rmsRecords, ne_eq, List.map_eq_nil_iff, List.range_eq_nil]
  exact Nat.succ_ne_zero _

omit [Sample K] in
theorem getD_rmsEnv (sqrt : K → K) (y : List K) (sr : ℕ) {outLen i : ℕ} (hi : i < outLen) :
    (rmsEnv sqrt y sr outLen).getD i 0 =
      envelopeAt (rmsRecords sqrt y (max 1 (sr / 2)) (max 1 (sr / 2) * 2)) outLen i := by
  rw [rmsEnv, List.getD_eq_getElem?_getD, List.getElem?_map, List.getElem?_range hi]
  rfl

omit [Sample K] in
/-- The legacy function multiplies every sample by its gain; a mix rate of one has no effect. -/
theorem changeRmsEnvelope_eq_mixed (sqrt : K → K) {pow : K → K → K} (hpow : ∀ x, pow x 0 = 1)
    {rate : K} (hrate : rate ≤ 1) (src : List K) {out : List K} (hout : out ≠ []) :
    changeRmsEnvelope sqrt pow src 16000 out rate =
      mixed pow rate (rmsRecords sqrt src 8000 16000) (rmsRecords sqrt out 20000 40000) out := by
  have hzero : out.length ≠ 0 := fun h => hout (List.length_eq_zero_iff.1 h)
  have hmap : changeRmsEnvelope sqrt pow src 16000 out rate =
      out.zipIdx.map (gained pow rate (rmsRecords sqrt src 8000 16000)
        (rmsRecords sqrt out 20000 40000) out.length) := by
    rw [changeRmsEnvelope]
    dsimp only
    rw [if_neg hzero]
    refine List.map_congr_left fun sample hsample => ?_
    have hindex : sample.2 < out.length := by
      have hmem := List.mem_zipIdx hsample
      omega
    rw [getD_rmsEnv _ _ _ hindex, getD_rmsEnv _ _ _ hindex]
    rfl
  rw [hmap, mixed]
  by_cases hlt : rate < 1
  · rw [if_pos hlt]
  · obtain rfl : rate = 1 := le_antisymm hrate (not_lt.1 hlt)
    rw [if_neg hlt]
    have hone : (gained pow 1 (rmsRecords sqrt src 8000 16000) (rmsRecords sqrt out 20000 40000)
        out.length : K × ℕ → K) = Prod.fst := by
      funext sample
      rw [gained, rmsGain, sub_self, hpow, hpow, mul_one, mul_one]
    rw [hone, List.zipIdx_map_fst]

/-- A source of one and a half seconds: four records. -/
def longSource : RawFloatSpool ℚ where
  samples := List.replicate 24001 4
  finite := fun _ _ => rfl
  bounded := by
    rw [List.length_replicate]
    decide

/-- Its output at 40 kHz: four records too. -/
def longOutput : RawFloatSpool ℚ where
  samples := List.replicate 60002 2
  finite := fun _ _ => rfl
  bounded := by
    rw [List.length_replicate]
    decide

/-- A source of RMS two, in the first of its records. -/
def loudSource : RawFloatSpool ℚ where
  samples := [80, 240]
  finite := fun _ _ => rfl
  bounded := by decide

/-- An output of RMS one. -/
def quietOutput : RawFloatSpool ℚ where
  samples := [200]
  finite := fun _ _ => rfl
  bounded := by decide

end Resonantia.Pipeline
