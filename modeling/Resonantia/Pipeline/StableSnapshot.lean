import Mathlib.Data.Rat.Floor
import Resonantia.Pipeline.SpoolLoops
import Resonantia.Pipeline.Stitching

/-!
# The stable 16 kHz snapshot

The legacy pipeline decodes the whole WAV file and resamples it with `resample_linear`.
`build_stable_16k_snapshot` walks over the output in blocks; it decodes a window of native frames at
a time and keeps it in a cache, that it fills again when a frame outside is needed. The reader
behind it decodes a file that does not change, so that a read is a slice of the decoded frames.

Arithmetic is exact here.

## Main definitions

* `Pipeline.resampleLinear`: `resample_linear`.
* `Pipeline.stableSampleCount`, `Pipeline.buildStable16kSnapshot`: the bounded functions.
* `Pipeline.resampledAt`: an output sample between two native frames.

## Main results

* `Pipeline.exists_sampleAt`: the cache answers with the frame, after reads inside the source.
* `Pipeline.buildStable16kSnapshot_eq_resampleLinear`: both produce the same samples, unless there are
  more than an `int` counts.
-/

namespace Resonantia.Pipeline

open Slices Io BlockLoop

variable {K : Type} [Field K] [LinearOrder K] [FloorSemiring K]

/-! ### The legacy function -/

/-- `resample_linear`. -/
def resampleLinear (input : List K) (inputLen srcSr dstSr : ℤ) : List K :=
  if inputLen ≤ 0 ∨ srcSr ≤ 0 ∨ dstSr ≤ 0 then []
  else if srcSr = dstSr then input.take inputLen.toNat
  else
    match checkedMul inputLen.toNat dstSr.toNat with
    | none => []
    | some scaledLength =>
      let outputLength := scaledLength / srcSr.toNat
      if outputLength = 0 ∨ outputLength > intMax then []
      else
        (List.range outputLength).map fun (i : ℕ) =>
          let position : K := (i : K) * (srcSr : K) / (dstSr : K)
          let index := if ⌊position⌋₊ ≥ inputLen.toNat then inputLen.toNat - 1 else ⌊position⌋₊
          let fraction := position - (index : K)
          if index + 1 < inputLen.toNat then
            input.getD index 0 * (1 - fraction) + input.getD (index + 1) 0 * fraction
          else input.getD index 0

/-! ### The bounded functions -/

/-- An open `WavChunkReader`: the decoded frames of the file and its sample rate, within the limits
that its header was checked against. -/
structure NativeReader (K : Type) where
  frames : List K
  sampleRate : ℕ
  frames_le : frames.length ≤ intMax
  sampleRate_le : sampleRate ≤ intMax

/-- `metadata.frame_count`. -/
def NativeReader.frameCount (reader : NativeReader K) : ℕ := reader.frames.length

/-- `read_mono_frames`. -/
def NativeReader.readMonoFrames (reader : NativeReader K) (firstFrame frameCount : ℕ) :
    Option (List K) :=
  match checkedAdd firstFrame frameCount with
  | none => none
  | some endFrame =>
    if endFrame > reader.frameCount then none else some (slice reader.frames firstFrame endFrame)

/-- `stable_sample_count`. -/
def stableSampleCount (reader : NativeReader K) : Option ℕ :=
  if reader.sampleRate = 0 ∨ reader.frameCount = 0 then none
  else
    match checkedMul reader.frameCount kInputSampleRate with
    | none => none
    | some scaled =>
      let output := scaled / reader.sampleRate
      if output > 0 then some output else none

/-- `native_cache` with its interval; `reads` are the ranges that were read so far. -/
structure NativeCache (K : Type) where
  frames : List K
  first : ℕ
  stop : ℕ
  reads : List (ℕ × ℕ)

namespace NativeCache

/-- The cache with the frame `index` in it. -/
def refill (cacheSamples : ℕ) (reader : NativeReader K) (cache : NativeCache K) (index : ℕ) :
    Option (NativeCache K) :=
  if index < cache.first ∨ index ≥ cache.stop then do
    let count := min cacheSamples (reader.frameCount - index)
    let frames ← reader.readMonoFrames index count
    return { frames := frames, first := index, stop := index + count,
             reads := cache.reads ++ [(index, count)] }
  else return cache

variable [Sample K]

/-- `sample_at`. -/
def sampleAt (cacheSamples : ℕ) (reader : NativeReader K) (cache : NativeCache K) (index : ℕ) :
    Option (K × NativeCache K) :=
  if index ≥ reader.frameCount then none
  else do
    let cache ← cache.refill cacheSamples reader index
    let value := cache.frames.getD (index - cache.first) 0
    if Sample.isFinite value = true then some (value, cache) else none

end NativeCache

section Snapshot

variable [Sample K] (cacheSamples : ℕ) (reader : NativeReader K)

/-- The sample between two frames, `first` being the left one. -/
def interpolateNext (cache : NativeCache K) (index : ℕ) (fraction first : K) :
    Except String (K × NativeCache K) :=
  if index + 1 < reader.frameCount then do
    let (second, cache) ← orFail (cache.sampleAt cacheSamples reader (index + 1))
      "bounded WAV decode failed"
    return (first * (1 - fraction) + second * fraction, cache)
  else return (first, cache)

/-- An output sample. -/
def resampleStep (state : NativeCache K × List K) (outputIndex : ℕ) :
    Except String (NativeCache K × List K) := do
  let position : K := (outputIndex : K) * (reader.sampleRate : K) / (kInputSampleRate : K)
  let index :=
    if ⌊position⌋₊ ≥ reader.frameCount then reader.frameCount - 1 else ⌊position⌋₊
  let fraction := position - (index : K)
  let (first, cache) ← orFail (state.1.sampleAt cacheSamples reader index)
    "bounded WAV decode failed"
  let (value, cache) ← interpolateNext cacheSamples reader cache index fraction first
  require (Sample.isFinite value = true) "bounded resampling produced non-finite audio"
  return (cache, state.2 ++ [value])

/-- A block of output samples. -/
def snapshotBlock (base count : ℕ) (state : NativeCache K × RawFloatSpool K) :
    Except String (NativeCache K × RawFloatSpool K) := do
  let (cache, output) ← (List.range' base count).foldlM (resampleStep cacheSamples reader)
    (state.1, [])
  let snapshot ← appendSpool state.2 output "failed to append stable 16 kHz audio"
  return (cache, snapshot)

/-- `build_stable_16k_snapshot`: the snapshot and the ranges that were read. The cache takes
`cacheSamples` frames at a time, 8192 in the source. -/
def buildStable16kSnapshot (expectedSamples : ℕ) :
    Except String (RawFloatSpool K × List (ℕ × ℕ)) := do
  require (¬(reader.sampleRate = 0 ∨ reader.frameCount = 0)) "invalid bounded WAV metadata"
  let (cache, snapshot) ← overBlocks kIoBlockSamples expectedSamples
    (snapshotBlock cacheSamples reader) 0
    (⟨[], 0, 0, []⟩, .create)
  require (snapshot.sampleCount = expectedSamples) "stable 16 kHz snapshot length mismatch"
  return (snapshot, cache.reads)

end Snapshot

/-- The output sample `i` of a rate: it lies between the frames at the integral part of its
position and at the next one, the fractional part being the weight of the latter. -/
def resampledAt (frames : List K) (sampleRate i : ℕ) : K :=
  let position : K := (i : K) * (sampleRate : K) / (kInputSampleRate : K)
  let index := ⌊position⌋₊
  let fraction := position - (index : K)
  if index + 1 < frames.length then
    frames.getD index 0 * (1 - fraction) + frames.getD (index + 1) 0 * fraction
  else frames.getD index 0

/-! ### The cache -/

section Cache

omit [LinearOrder K] [FloorSemiring K]

/-- The cache holds an interval of the source, and all reads were inside the source. -/
structure NativeCache.Valid (reader : NativeReader K) (cache : NativeCache K) : Prop where
  frames : cache.frames = slice reader.frames cache.first cache.stop
  stop_le : cache.stop ≤ reader.frames.length
  reads : ∀ range ∈ cache.reads, 0 < range.2 ∧ range.1 + range.2 ≤ reader.frames.length

omit [Field K] in
/-- A cache that is filled again holds the frame. -/
theorem exists_refill {cacheSamples : ℕ} (hcache : 0 < cacheSamples) {reader : NativeReader K}
    {cache : NativeCache K} (hvalid : cache.Valid reader) {index : ℕ}
    (hindex : index < reader.frames.length) :
    ∃ next, cache.refill cacheSamples reader index = some next ∧ next.Valid reader ∧
      next.first ≤ index ∧ index < next.stop := by
  have hlimit := reader.frames_le
  rw [NativeCache.refill]
  by_cases hmiss : index < cache.first ∨ index ≥ cache.stop
  · have hread : reader.readMonoFrames index (min cacheSamples (reader.frames.length - index)) =
        some (slice reader.frames index
          (index + min cacheSamples (reader.frames.length - index))) := by
      rw [NativeReader.readMonoFrames, checkedAdd_of_lt (by rw [intMax] at hlimit; omega)]
      exact if_neg (by rw [NativeReader.frameCount]; omega)
    have hle : index + min cacheSamples (reader.frames.length - index) ≤ reader.frames.length := by
      omega
    have hlt : index < index + min cacheSamples (reader.frames.length - index) := by omega
    rw [if_pos hmiss, NativeReader.frameCount]
    dsimp only
    rw [hread]
    refine ⟨_, rfl, ⟨rfl, hle, ?_⟩, Nat.le_refl _, hlt⟩
    intro range hrange
    rcases List.mem_append.1 hrange with hrange | hrange
    · exact hvalid.reads range hrange
    · rw [List.mem_singleton.1 hrange]
      omega
  · rw [if_neg hmiss]
    exact ⟨cache, rfl, hvalid, by omega, by omega⟩

/-- **The cache answers with the frame of the source**, wherever its window was. -/
theorem exists_sampleAt [Sample K] (hfinite : ∀ x : K, Sample.isFinite x = true) {cacheSamples : ℕ}
    (hcache : 0 < cacheSamples) {reader : NativeReader K} {cache : NativeCache K}
    (hvalid : cache.Valid reader) {index : ℕ} (hindex : index < reader.frames.length) :
    ∃ next, cache.sampleAt cacheSamples reader index =
        some (reader.frames.getD index 0, next) ∧ next.Valid reader := by
  obtain ⟨next, hnext, hvalid', hfirst, hstop⟩ := exists_refill hcache hvalid hindex
  have hvalue : next.frames.getD (index - next.first) 0 = reader.frames.getD index 0 := by
    rw [hvalid'.frames, List.getD_eq_getElem?_getD, getElem?_slice, if_pos (by omega),
      Nat.add_sub_cancel' hfirst, ← List.getD_eq_getElem?_getD]
  refine ⟨next, ?_, hvalid'⟩
  rw [NativeCache.sampleAt, if_neg (by rw [NativeReader.frameCount]; omega), hnext]
  change (if Sample.isFinite (next.frames.getD (index - next.first) 0) = true then
    some (next.frames.getD (index - next.first) 0, next) else none) = _
  rw [if_pos (hfinite _), hvalue]

end Cache

/-! ### The output samples -/

section Output

omit [Field K] [LinearOrder K] [FloorSemiring K] in
/-- What `stable_sample_count` establishes. -/
theorem of_stableSampleCount {reader : NativeReader K} {n : ℕ}
    (h : stableSampleCount reader = some n) :
    0 < reader.sampleRate ∧ 0 < reader.frames.length ∧ 0 < n ∧
      n = reader.frames.length * kInputSampleRate / reader.sampleRate := by
  rw [stableSampleCount] at h
  split_ifs at h with hzero
  split at h
  · cases h
  · rename_i scaled hscaled
    obtain rfl := eq_mul_of_checkedMul hscaled
    dsimp only at h
    split_ifs at h with hpos
    obtain rfl := Option.some.inj h
    rw [NativeReader.frameCount] at hzero hpos
    exact ⟨by omega, by omega, hpos, rfl⟩

/-- No output sample lies behind the last frame. -/
theorem floor_position_lt [IsStrictOrderedRing K] {frames sampleRate i : ℕ}
    (hrate : 0 < sampleRate) (hi : i < frames * kInputSampleRate / sampleRate) :
    ⌊(i : K) * (sampleRate : K) / (kInputSampleRate : K)⌋₊ < frames := by
  have hlt : i * sampleRate < frames * kInputSampleRate := by
    have hle : (i + 1) * sampleRate ≤ frames * kInputSampleRate :=
      (Nat.le_div_iff_mul_le hrate).1 hi
    rw [Nat.add_mul] at hle
    omega
  have hpos : (0 : K) < (kInputSampleRate : K) := Nat.cast_pos.2 (by decide)
  rw [Nat.floor_lt (by positivity), div_lt_iff₀ hpos]
  exact_mod_cast hlt

variable [Sample K] (hfinite : ∀ x : K, Sample.isFinite x = true) {cacheSamples : ℕ}
  (hcache : 0 < cacheSamples) {reader : NativeReader K}

include hfinite hcache

/-- An output sample is interpolated between its two frames. -/
theorem exists_resampleStep [IsStrictOrderedRing K] (hrate : 0 < reader.sampleRate)
    {state : NativeCache K × List K} (hvalid : state.1.Valid reader) {i : ℕ}
    (hi : i < reader.frames.length * kInputSampleRate / reader.sampleRate) :
    ∃ next, resampleStep cacheSamples reader state i = .ok next ∧ next.1.Valid reader ∧
      next.2 = state.2 ++ [resampledAt reader.frames reader.sampleRate i] := by
  have hfloor : ⌊(i : K) * (reader.sampleRate : K) / (kInputSampleRate : K)⌋₊ <
      reader.frames.length := floor_position_lt hrate hi
  have hindex : (if ⌊(i : K) * (reader.sampleRate : K) / (kInputSampleRate : K)⌋₊ ≥
        reader.frameCount then reader.frameCount - 1
      else ⌊(i : K) * (reader.sampleRate : K) / (kInputSampleRate : K)⌋₊) =
        ⌊(i : K) * (reader.sampleRate : K) / (kInputSampleRate : K)⌋₊ :=
    if_neg (not_le.2 hfloor)
  rw [resampleStep, hindex, resampledAt]
  dsimp only
  generalize (i : K) * (reader.sampleRate : K) / (kInputSampleRate : K) = position at hfloor ⊢
  obtain ⟨cache, hfirst, hcacheValid⟩ := exists_sampleAt hfinite hcache hvalid hfloor
  obtain ⟨last, hnext, hlast⟩ : ∃ last,
      interpolateNext cacheSamples reader cache ⌊position⌋₊ (position - (⌊position⌋₊ : K))
          (reader.frames.getD ⌊position⌋₊ 0) =
        .ok (if ⌊position⌋₊ + 1 < reader.frames.length then
            reader.frames.getD ⌊position⌋₊ 0 * (1 - (position - (⌊position⌋₊ : K))) +
              reader.frames.getD (⌊position⌋₊ + 1) 0 * (position - (⌊position⌋₊ : K))
          else reader.frames.getD ⌊position⌋₊ 0, last) ∧ last.Valid reader := by
    rw [interpolateNext, NativeReader.frameCount]
    by_cases hmore : ⌊position⌋₊ + 1 < reader.frames.length
    · obtain ⟨last, hsecond, hlast⟩ := exists_sampleAt hfinite hcache hcacheValid hmore
      rw [if_pos hmore, if_pos hmore, hsecond]
      exact ⟨last, rfl, hlast⟩
    · rw [if_neg hmore, if_neg hmore]
      exact ⟨cache, rfl, hcacheValid⟩
  rw [hfirst]
  change ∃ next, (interpolateNext cacheSamples reader cache ⌊position⌋₊ _ _ >>= fun _ => _) =
    .ok next ∧ _
  rw [hnext]
  change ∃ next, (require _ _ >>= fun _ => _) = .ok next ∧ _
  rw [require, if_pos (hfinite _)]
  exact ⟨_, rfl, hlast, rfl⟩

theorem exists_foldlM_resampleStep [IsStrictOrderedRing K] (hrate : 0 < reader.sampleRate)
    (indices : List ℕ)
    (hindices : ∀ i ∈ indices, i < reader.frames.length * kInputSampleRate / reader.sampleRate)
    (cache : NativeCache K) (output : List K) (hvalid : cache.Valid reader) :
    ∃ last, indices.foldlM (resampleStep cacheSamples reader) (cache, output) =
        .ok (last, output ++ indices.map (resampledAt reader.frames reader.sampleRate)) ∧
      last.Valid reader := by
  induction indices generalizing cache output with
  | nil => exact ⟨cache, by rw [List.map_nil, List.append_nil]; rfl, hvalid⟩
  | cons i indices ih =>
    obtain ⟨⟨cache', output'⟩, hstep, hvalid', houtput'⟩ :=
      @exists_resampleStep K _ _ _ _ hfinite _ hcache reader _ hrate (cache, output) hvalid i
        (hindices i List.mem_cons_self)
    dsimp only at hvalid' houtput'
    obtain ⟨last, hrun, hlast⟩ := ih (fun j hj => hindices j (List.mem_cons_of_mem _ hj)) cache'
      output' hvalid'
    refine ⟨last, ?_, hlast⟩
    rw [houtput', List.append_assoc, List.singleton_append] at hrun
    rw [List.foldlM_cons, hstep, houtput', List.map_cons]
    exact hrun

/-- A block adds its output samples to the snapshot. -/
theorem exists_snapshotBlock [IsStrictOrderedRing K] (hrate : 0 < reader.sampleRate)
    {base count : ℕ} {state : NativeCache K × RawFloatSpool K} (hvalid : state.1.Valid reader)
    (hle : base + count ≤ reader.frames.length * kInputSampleRate / reader.sampleRate)
    (hlength : state.2.samples.length = base) :
    ∃ next, snapshotBlock cacheSamples reader base count state = .ok next ∧ next.1.Valid reader ∧
      next.2.samples = state.2.samples ++
        (List.range' base count).map (resampledAt reader.frames reader.sampleRate) := by
  obtain ⟨last, hrun, hlast⟩ := exists_foldlM_resampleStep hfinite hcache hrate
    (List.range' base count)
    (fun i hi => (List.mem_range'_1.1 hi).2.trans_le hle) state.1 [] hvalid
  have hlimit : reader.frames.length * kInputSampleRate / reader.sampleRate ≤ 2 ^ 45 := by
    have hframes := reader.frames_le
    rw [intMax] at hframes
    refine (Nat.div_le_self _ _).trans ?_
    simp only [kInputSampleRate]
    omega
  obtain ⟨snapshot, happend, hsamples⟩ := RawSampleSpool.append_of_finite state.2
    ([] ++ (List.range' base count).map (resampledAt reader.frames reader.sampleRate))
    (fun x _ => hfinite x) (by
      rw [List.nil_append, List.length_map, List.length_range', hlength, offMax]
      omega)
  refine ⟨(last, snapshot), ?_, hlast, hsamples⟩
  rw [snapshotBlock, hrun]
  change (appendSpool state.2 _ _ >>= fun _ => _) = _
  rw [appendSpool_eq_ok.2 happend]
  rfl

end Output

/-- At the rate of the snapshot the frames are taken as they are. -/
theorem resampledAt_native [IsStrictOrderedRing K] (frames : List K) (i : ℕ) :
    resampledAt frames kInputSampleRate i = frames.getD i 0 := by
  have hne : (kInputSampleRate : K) ≠ 0 := Nat.cast_ne_zero.2 (by decide)
  rw [resampledAt, mul_div_cancel_right₀ _ hne, Nat.floor_natCast, sub_self, sub_zero, mul_one, mul_zero, add_zero, ite_self]

/-- `resample_linear` interpolates the same frames. -/
theorem resampleLinear_eq_map [IsStrictOrderedRing K] {reader : NativeReader K} {n : ℕ}
    (hcount : stableSampleCount reader = some n) (hn : n ≤ intMax) :
    resampleLinear reader.frames (toInt reader.frames.length) reader.sampleRate kInputSampleRate =
      (List.range n).map (resampledAt reader.frames reader.sampleRate) := by
  obtain ⟨hrate, hframes, hpos, hlength⟩ := of_stableSampleCount hcount
  have hlimit := reader.frames_le
  rw [intMax] at hlimit
  rw [resampleLinear, toInt_of_lt (by omega), if_neg (by rw [kInputSampleRate]; omega)]
  by_cases hnative : reader.sampleRate = kInputSampleRate
  · rw [if_pos (congrArg Nat.cast hnative), hnative, Int.toNat_natCast, List.take_length]
    rw [hnative, Nat.mul_div_cancel _ (by decide)] at hlength
    subst hlength
    refine List.ext_getElem? fun i => ?_
    rw [List.getElem?_map]
    by_cases hi : i < reader.frames.length
    · rw [List.getElem?_range hi, Option.map_some, resampledAt_native, List.getD_eq_getElem?_getD,
        List.getElem?_eq_getElem hi]
      rfl
    · rw [List.getElem?_eq_none (not_lt.1 hi),
        List.getElem?_eq_none (by rw [List.length_range]; exact not_lt.1 hi)]
      rfl
  · rw [if_neg fun h => hnative (Int.natCast_inj.1 h), Int.toNat_natCast, Int.toNat_natCast,
      checkedMul_of_lt (by rw [kInputSampleRate]; omega)]
    dsimp only
    rw [Int.toNat_natCast, ← hlength, if_neg (by omega)]
    refine List.map_congr_left fun i hi => ?_
    have hfloor : ⌊(i : K) * (reader.sampleRate : K) / (kInputSampleRate : K)⌋₊ <
        reader.frames.length :=
      floor_position_lt hrate (hlength ▸ List.mem_range.1 hi)
    rw [Int.cast_natCast, Int.cast_natCast, if_neg (not_le.2 hfloor), resampledAt]

/-- A length that `convert_file_bounded` accepts is within the range of `resample_linear`. -/
theorem le_intMax_of_boundedOutputSamples {n m : ℕ} (h : boundedOutputSamples n = .ok m) :
    n ≤ intMax := by
  obtain ⟨-, hm, hlt⟩ := of_boundedOutputSamples h
  rw [intMax]
  omega

/-- The snapshot of a source has as many samples as `stable_sample_count` announces, each between its
two frames. No read leaves the source, whatever the size of the cache. -/
theorem exists_buildStable16kSnapshot [IsStrictOrderedRing K] [Sample K]
    (hfinite : ∀ x : K, Sample.isFinite x = true) {cacheSamples : ℕ} (hcache : 0 < cacheSamples)
    {reader : NativeReader K} {n : ℕ} (hcount : stableSampleCount reader = some n) :
    ∃ snapshot reads, buildStable16kSnapshot cacheSamples reader n = .ok (snapshot, reads) ∧
      snapshot.samples = (List.range n).map (resampledAt reader.frames reader.sampleRate) ∧
      ∀ range ∈ reads, 0 < range.2 ∧ range.1 + range.2 ≤ reader.frames.length := by
  obtain ⟨hrate, hframes, hpos, hlength⟩ := of_stableSampleCount hcount
  have hblock (base count : ℕ) (state : NativeCache K × RawFloatSpool K) (_ : 0 < count)
      (_ : count ≤ kIoBlockSamples) (hle : base + count ≤ n)
      (hstate : state.1.Valid reader ∧ state.2.samples =
        (List.range base).map (resampledAt reader.frames reader.sampleRate)) :
      Outcome
        (fun state : NativeCache K × RawFloatSpool K =>
          state.1.Valid reader ∧ state.2.samples =
            (List.range (base + count)).map (resampledAt reader.frames reader.sampleRate))
        (fun _ => False) (snapshotBlock cacheSamples reader base count state) := by
    obtain ⟨next, hrun, hvalid, hsamples⟩ := exists_snapshotBlock hfinite hcache hrate hstate.1
      (hlength ▸ hle) (by rw [hstate.2, List.length_map, List.length_range])
    rw [hrun]
    refine ⟨hvalid, ?_⟩
    rw [hsamples, hstate.2, ← List.map_append, List.range_eq_range', List.range_eq_range',
      ← List.range'_append, Nat.one_mul, Nat.zero_add]
  have hempty : (⟨[], 0, 0, []⟩ : NativeCache K).Valid reader :=
    ⟨(slice_self _ _).symm, Nat.zero_le _, fun _ h => absurd h List.not_mem_nil⟩
  obtain ⟨⟨cache, snapshot⟩, hrun, hvalid, hsamples⟩ := exists_of_outcome
    (overBlocks_outcome _ (by decide) hblock (Nat.zero_le n) (s := (⟨[], 0, 0, []⟩, .create))
      ⟨hempty, rfl⟩)
  dsimp only at hvalid hsamples
  refine ⟨snapshot, cache.reads, ?_, hsamples, hvalid.reads⟩
  rw [buildStable16kSnapshot, require, if_pos (by rw [NativeReader.frameCount]; omega)]
  change (overBlocks _ _ _ _ _ >>= fun _ => _) = _
  rw [hrun]
  change (require _ _ >>= fun _ => _) = _
  rw [require, if_pos (by
    rw [RawSampleSpool.sampleCount, hsamples, List.length_map, List.length_range])]
  rfl

/-- **The snapshot is the resampled file.** It has as many samples as `stable_sample_count`
announces, each between its two frames, and those of `resample_linear` when that function accepts
their number, as `convert_file_bounded` has checked (`le_intMax_of_boundedOutputSamples`). No read
leaves the source, whatever the size of the cache. -/
theorem buildStable16kSnapshot_eq_resampleLinear [IsStrictOrderedRing K] [Sample K]
    (hfinite : ∀ x : K, Sample.isFinite x = true) {cacheSamples : ℕ} (hcache : 0 < cacheSamples)
    {reader : NativeReader K} {n : ℕ} (hcount : stableSampleCount reader = some n) :
    ∃ snapshot reads, buildStable16kSnapshot cacheSamples reader n = .ok (snapshot, reads) ∧
      snapshot.samples = (List.range n).map (resampledAt reader.frames reader.sampleRate) ∧
      (n ≤ intMax → snapshot.samples =
        resampleLinear reader.frames (toInt reader.frames.length) reader.sampleRate
          kInputSampleRate) ∧
      ∀ range ∈ reads, 0 < range.2 ∧ range.1 + range.2 ≤ reader.frames.length := by
  obtain ⟨snapshot, reads, hrun, hsamples, hreads⟩ :=
    exists_buildStable16kSnapshot hfinite hcache hcount
  refine ⟨snapshot, reads, hrun, hsamples, fun hn => ?_, hreads⟩
  rw [hsamples, resampleLinear_eq_map hcount hn]

/-- Three frames at half the rate of the snapshot. -/
def threeFrames : NativeReader ℚ where
  frames := [0, 10, 20]
  sampleRate := 8000
  frames_le := by decide
  sampleRate_le := by decide

/-- A cache of two frames, filled again between two neighbours. -/
theorem buildStable16kSnapshot_eq_resampleLinear_threeFrames :
    ∃ snapshot reads, buildStable16kSnapshot 2 threeFrames 6 = .ok (snapshot, reads) ∧
      snapshot.samples = [0, 5, 10, 15, 20, 20] ∧
      resampleLinear threeFrames.frames 3 8000 16000 = [0, 5, 10, 15, 20, 20] ∧
      ∀ range ∈ reads, 0 < range.2 ∧ range.1 + range.2 ≤ 3 := by
  have hlegacy : resampleLinear threeFrames.frames 3 8000 16000 = [0, 5, 10, 15, 20, 20] := by
    decide +kernel
  obtain ⟨snapshot, reads, hrun, -, hsamples, hreads⟩ :=
    buildStable16kSnapshot_eq_resampleLinear (fun _ => rfl) (show 0 < 2 by decide)
      (show stableSampleCount threeFrames = some 6 by decide)
  have hlength : toInt threeFrames.frames.length = 3 := by decide
  have heq := hsamples (by decide)
  rw [hlength] at heq
  exact ⟨snapshot, reads, hrun, heq.trans hlegacy, hlegacy, hreads⟩

/-- More than two days at one frame a second. -/
def slowFrames : NativeReader ℚ where
  frames := List.replicate 200000 0
  sampleRate := 1
  frames_le := by
    rw [List.length_replicate]
    decide
  sampleRate_le := by decide

/-- More samples than an `int` counts: the snapshot has them all, `resample_linear` returns none. -/
theorem not_resampleLinear_slowFrames :
    (∃ snapshot reads,
      buildStable16kSnapshot 8192 slowFrames 3200000000 = .ok (snapshot, reads) ∧
        snapshot.samples.length = 3200000000) ∧
      stableSampleCount slowFrames = some 3200000000 ∧
      resampleLinear slowFrames.frames (toInt slowFrames.frames.length) slowFrames.sampleRate
        kInputSampleRate = [] := by
  have hframes : slowFrames.frames.length = 200000 := List.length_replicate
  have hcount : stableSampleCount slowFrames = some 3200000000 := by
    rw [stableSampleCount, NativeReader.frameCount, hframes]
    decide
  refine ⟨?_, hcount, ?_⟩
  · obtain ⟨snapshot, reads, hrun, hsamples, -⟩ :=
      exists_buildStable16kSnapshot (fun _ => rfl) (show 0 < 8192 by decide) hcount
    exact ⟨snapshot, reads, hrun, by rw [hsamples, List.length_map, List.length_range]⟩
  · rw [resampleLinear, hframes, if_neg (by decide), if_neg (by decide)]
    rfl

end Resonantia.Pipeline
