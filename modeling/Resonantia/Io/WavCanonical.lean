import Resonantia.Io.WavAgreement
import Resonantia.Io.WavWriter

/-!
# Canonical WAV files

The header with the sizes and the encoded samples are a file that `WavChunkReader` opens with the
declared rate and the declared number of frames, and whose frames are the samples that were
encoded.

## Main definitions

* `Io.WavWriter.canonical`: the file of a list of 16-bit values.
* `Io.WavWriter.ReadsBack`: what the reader makes of a file.

## Main results

* `Io.WavWriter.quantize_mem`: a sample that an append takes is encoded in 16 bits.
* `Io.WavWriter.readsBack_canonical`: a canonical file is read back.
-/

namespace Resonantia.Io.WavWriter

open ByteString BinaryFloat FloatWord Wav
open Pipeline (eq_add_of_checkedAdd eq_mul_of_checkedMul)

/-! ### Samples -/

/-- The values of 16 bits. -/
def IsPcm (pcm : ℤ) : Prop := -32768 ≤ pcm ∧ pcm ≤ 32767

/-- The level of a 16-bit value. -/
def level (pcm : ℤ) : ℚ := pcm / 32768

theorem truncate_le {q : ℚ} {n : ℕ} (h : q ≤ n) : truncate q ≤ n := by
  rw [truncate]
  split_ifs with hneg
  · have hfloor : (0 : ℤ) ≤ ⌊-q⌋ := Int.floor_nonneg.2 (by linarith)
    omega
  · exact_mod_cast (Int.floor_le q).trans h

theorem le_truncate {q : ℚ} {n : ℕ} (h : -(n : ℚ) ≤ q) : -(n : ℤ) ≤ truncate q := by
  rw [truncate]
  split_ifs with hneg
  · have hle : ((⌊-q⌋ : ℤ) : ℚ) ≤ (n : ℤ) := by
      push_cast
      exact (Int.floor_le _).trans (by linarith)
    have hfloor : ⌊-q⌋ ≤ (n : ℤ) := by exact_mod_cast hle
    omega
  · have hfloor : (0 : ℤ) ≤ ⌊q⌋ := Int.floor_nonneg.2 (not_lt.1 hneg)
    omega

/-- Rounding does not pass a whole number of few bits. -/
theorem nearestSigned_bounds {q : ℚ} {low high : ℕ} (hlow : low < 2 ^ 24) (hhigh : high < 2 ^ 24)
    (hle : -(low : ℚ) ≤ q) (hge : q ≤ high) :
    -(low : ℚ) ≤ binary32.nearestSigned q ∧ binary32.nearestSigned q ≤ high := by
  have hmin : binary32.minExponent ≤ 0 := by decide
  rw [Format.nearestSigned]
  split_ifs with hneg
  · have hpos : 0 ≤ -q := by linarith
    have hnearest := Format.nearest_le hpos (by linarith)
      (Format.representable_natCast (F := binary32) hlow hmin)
    have hnonneg := Format.nearest_nonneg (F := binary32) hpos
    have hzero : (0 : ℚ) ≤ high := Nat.cast_nonneg high
    exact ⟨by linarith, by linarith⟩
  · have hpos := not_lt.1 hneg
    have hnearest := Format.nearest_le hpos hge
      (Format.representable_natCast (F := binary32) hhigh hmin)
    have hnonneg := Format.nearest_nonneg (F := binary32) hpos
    have hzero : (0 : ℚ) ≤ low := Nat.cast_nonneg low
    exact ⟨by linarith, hnearest⟩

/-- **A sample that an append takes is encoded in 16 bits.** -/
theorem isPcm_quantize {exactPcm16 : Bool} {sample : UInt32}
    (h : rejects exactPcm16 sample = false) : IsPcm (quantize exactPcm16 sample) := by
  rw [quantize]
  cases exactPcm16 with
  | true =>
    rw [rejects] at h
    simp only [Bool.true_and, Bool.or_eq_false_iff, decide_eq_false_iff_not, not_lt] at h
    obtain ⟨-, ⟨hlow, hhigh⟩, -⟩ := h
    obtain ⟨hle, hge⟩ := @nearestSigned_bounds (value sample * 32768) 32768 32767
      (by norm_num) (by norm_num) (by push_cast; linarith) (by push_cast; linarith)
    rw [if_pos rfl]
    exact ⟨le_truncate hle, truncate_le hge⟩
  | false =>
    have hclamp : -1 ≤ max (-1) (min (value sample) 1) ∧ max (-1) (min (value sample) 1) ≤ 1 :=
      ⟨le_max_left _ _, max_le (by norm_num) (min_le_right _ _)⟩
    obtain ⟨hle, hge⟩ := @nearestSigned_bounds
      (max (-1) (min (value sample) 1) * 32767) 32767 32767 (by norm_num) (by norm_num) (by push_cast; linarith)
      (by push_cast; linarith)
    rw [if_neg Bool.false_ne_true]
    have hlow := le_truncate hle
    exact ⟨by omega, truncate_le hge⟩

@[simp]
theorem length_encodePcm (pcm : ℤ) : (encodePcm pcm).length = 2 := length_littleEndian 2 _

theorem length_flatMap_encodePcm (samples : List ℤ) :
    (samples.flatMap encodePcm).length = 2 * samples.length := by
  induction samples with
  | nil => rfl
  | cons pcm samples ih =>
    rw [List.flatMap_cons, List.length_append, length_encodePcm, ih, List.length_cons]
    omega

/-- The bytes of one sample among those of all. -/
theorem slice_flatMap_encodePcm {samples : List ℤ} {i : ℕ} (h : i < samples.length) :
    ((samples.flatMap encodePcm).drop (2 * i)).take 2 = encodePcm samples[i] := by
  induction samples generalizing i with
  | nil => exact absurd h (Nat.not_lt_zero i)
  | cons pcm samples ih =>
    rw [List.flatMap_cons]
    cases i with
    | zero => exact List.take_left' (length_encodePcm pcm)
    | succ i =>
      rw [Nat.mul_succ, Nat.add_comm, ← List.drop_drop, List.drop_left' (length_encodePcm pcm),
        ih (Nat.lt_of_succ_lt_succ h), List.getElem_cons_succ]

/-- **A 16-bit value is read back.** -/
theorem pcmValue_encodePcm {pcm : ℤ} (h : IsPcm pcm) :
    pcmValue (ofLittleEndian (encodePcm pcm)) = pcm := by
  obtain ⟨hlow, hhigh⟩ := h
  rw [encodePcm, ofLittleEndian_littleEndian (by omega), pcmValue]
  split_ifs <;> omega

/-- The sample of a 16-bit value. -/
theorem exists_mean_pcm {pcm : ℤ} (h : IsPcm pcm) :
    ∃ y : Finite binary32, Number.convert (Number.divNat (Number.add (Number.zero false)
      (Number.ofRat (pcm / 32768) : Number binary64)) 1) = some y ∧ y.value = level pcm := by
  have habs : pcm.natAbs ≤ 32768 := by
    obtain ⟨hlow, hhigh⟩ := h
    omega
  have hvalue : |(pcm : ℚ) / 32768| = pcm.natAbs * (2 : ℚ) ^ (-15 : ℤ) := by
    rw [abs_div, Nat.cast_natAbs, Int.cast_abs]
    norm_num
    ring
  have hrange : |(pcm : ℚ) / 32768| ≤ 1 := by
    have : (pcm.natAbs : ℚ) ≤ 32768 := by exact_mod_cast habs
    have hpow : (2 : ℚ) ^ (-15 : ℤ) = 1 / 32768 := by norm_num
    rw [hvalue, hpow]
    linarith
  have hrepresentable : ∀ F : Format, 16 ≤ F.precision → F.minExponent ≤ -15 →
      F.Representable |(pcm : ℚ) / 32768| := by
    intro F hprecision hmin
    refine ⟨pcm.natAbs, -15, ?_, hmin, hvalue⟩
    calc pcm.natAbs < 2 ^ 16 := by omega
      _ ≤ 2 ^ F.precision := Nat.pow_le_pow_right (by norm_num) hprecision
  have hbounded : ∀ k : ℤ, 1 ≤ k → |(pcm : ℚ) / 32768| < 2 ^ k := by
    intro k hk
    calc |(pcm : ℚ) / 32768| ≤ 1 := hrange
      _ < 2 ^ (1 : ℤ) := by norm_num
      _ ≤ 2 ^ k := zpow_le_zpow_right₀ (by norm_num) hk
  obtain ⟨x, hx, hxvalue⟩ := exists_ofRat_eq (F := binary64) (hrepresentable _ (by decide)
    (by decide)) (hbounded _ (by decide))
  obtain ⟨sum, hsum, hsumvalue⟩ := exists_zero_add x
  obtain ⟨mean, hmean, hmeanvalue⟩ := exists_divNat_one sum
  have hmeanvalue' : mean.value = pcm / 32768 := by rw [hmeanvalue, hsumvalue, hxvalue]
  have hsingle := hrepresentable binary32 (by decide) (by decide)
  have hsinglerange := hbounded binary32.maxExponent (by decide)
  rw [← hmeanvalue'] at hsingle hsinglerange
  obtain ⟨y, hy, hyvalue⟩ := exists_convert_eq (G := binary32) hsingle hsinglerange
  exact ⟨y, by rw [hx, hsum, hmean, hy], hyvalue.trans hmeanvalue'⟩

/-! ### Files -/

/-- The file of a list of 16-bit values. -/
def canonical (sampleRate : ℤ) (layout : WavOutputLayout) (samples : List ℤ) : Bytes :=
  makeWavHeader sampleRate layout true ++ samples.flatMap encodePcm

theorem length_makeWavHeader (sampleRate : ℤ) (layout : WavOutputLayout) (finalSizes : Bool) :
    (makeWavHeader sampleRate layout finalSizes).length = kWavHeaderBytes := rfl

/-- What a layout ensures. -/
structure Fits (sampleRate : ℤ) (samples : ℕ) (layout : WavOutputLayout) : Prop where
  rate_pos : 0 < sampleRate
  rate_le : sampleRate ≤ maxInt
  byteRate : layout.byteRate = sampleRate.toNat * 2
  dataBytes : layout.dataBytes = 2 * samples
  riffSize : layout.riffSize = 36 + 2 * samples
  riffSize_lt : layout.riffSize < 2 ^ 32

theorem fits_of_wavOutputLayout {sampleRate : ℤ} {samples : ℕ} {layout : WavOutputLayout}
    (h : wavOutputLayout sampleRate samples = some layout) : Fits sampleRate samples layout := by
  rw [wavOutputLayout] at h
  split_ifs at h with hrate
  obtain ⟨dataBytes, hdata, h⟩ := Option.bind_eq_some_iff.1 h
  obtain ⟨riffSize, hriff, h⟩ := Option.bind_eq_some_iff.1 h
  split_ifs at h with hlarge
  have hdata' := eq_mul_of_checkedMul hdata
  have hriff' := eq_add_of_checkedAdd hriff
  rw [← Option.some.inj h]
  refine ⟨by omega, ?_, rfl, ?_, ?_, ?_⟩
  · rw [maxInt]
    omega
  · dsimp only
    omega
  · dsimp only
    omega
  · dsimp only
    omega

/-- What the reader makes of a file: a mono file of 16-bit samples with this rate, whose frames have
these values. -/
def ReadsBack (content : Bytes) (sampleRate : ℤ) (samples : List ℤ) : Prop :=
  ∃ state, WavChunkReader.openFile content = some state ∧
    state.metadata = ⟨sampleRate.toNat, 1, 16, .pcm16, samples.length⟩ ∧
      ∃ decoded : List (Finite binary32),
        WavChunkReader.readMonoFrames content state 0 samples.length =
          some (decoded.map some) ∧
        decoded.map Finite.value = samples.map level

section Canonical

variable {sampleRate : ℤ} {layout : WavOutputLayout} {samples : List ℤ}

theorem length_canonical (sampleRate : ℤ) (layout : WavOutputLayout) (samples : List ℤ) :
    (canonical sampleRate layout samples).length = 44 + 2 * samples.length := by
  rw [canonical, List.length_append, length_makeWavHeader, length_flatMap_encodePcm,
    kWavHeaderBytes]

/-- A part of the header. -/
theorem readAt_canonical {offset size : ℕ} (h : offset + size ≤ kWavHeaderBytes) :
    ReadWav.readAt (canonical sampleRate layout samples) offset size =
      some (((makeWavHeader sampleRate layout true).drop offset).take size) := by
  rw [kWavHeaderBytes] at h
  have hoffset : ¬maxOffset < offset := by
    rw [maxOffset]
    omega
  have hlength := length_canonical sampleRate layout samples
  rw [ReadWav.readAt, if_neg hoffset]
  split_ifs with hzero hend
  · rw [hzero, List.take_zero]
  · rw [canonical, List.drop_append_of_le_length (by rw [length_makeWavHeader, kWavHeaderBytes]; omega),
      List.take_append_of_le_length]
    rw [List.length_drop, length_makeWavHeader, kWavHeaderBytes]
    omega
  · omega

/-- The format of a canonical file. -/
def canonicalFormat (sampleRate : ℤ) : ReadWav.WavFormat where
  audioFormat := kPcm
  channels := 1
  sampleRate := sampleRate.toNat
  byteRate := sampleRate.toNat * 2
  blockAlign := 2
  bitsPerSample := 16

theorem validFormat_canonicalFormat (h : Fits sampleRate samples.length layout) :
    ValidFormat (canonicalFormat sampleRate) := by
  have hpos := h.rate_pos
  have hle := h.rate_le
  rw [maxInt] at hle
  refine ⟨Or.inl ⟨rfl, rfl⟩, Nat.one_pos, (by decide : 1 ≤ kMaxChannels), ?_, ?_,
    (by decide : 2 = 1 * (16 / 8)), rfl, ?_⟩
  · change 0 < sampleRate.toNat
    omega
  · change sampleRate.toNat ≤ 2 ^ 31 - 1
    omega
  · change sampleRate.toNat * 2 ≤ 2 ^ 32 - 1
    omega

/-- The variables of the loop at the end of a canonical file. -/
def canonicalWalk (sampleRate : ℤ) (samples : List ℤ) : ReadWav.Walk where
  hasFmt := true
  hasData := true
  format := canonicalFormat sampleRate
  dataOffset := 44
  dataSize := 2 * samples.length
  cursor := 44 + 2 * samples.length

theorem readU32_field {data : Bytes} {position n : ℕ} (h : (data.drop position).take 4 =
    littleEndian 4 n) (hn : n < 2 ^ 32) : readU32 data position = n := by
  rw [readU32, h]
  exact ofLittleEndian_littleEndian hn

theorem readU16_field {data : Bytes} {position n : ℕ} (h : (data.drop position).take 2 =
    littleEndian 2 n) (hn : n < 2 ^ 16) : readU16 data position = n := by
  rw [readU16, h]
  exact ofLittleEndian_littleEndian hn

/-- A chunk whose header is in the header of the file. -/
theorem chunkAt_canonical {name : Bytes} {cursor size : ℕ} (hlt : layout.riffSize < 2 ^ 32)
    (hriff : layout.riffSize = 36 + 2 * samples.length) (hcursor : cursor + 8 ≤ kWavHeaderBytes)
    (hname : ((((makeWavHeader sampleRate layout true).drop cursor).take 8).take 4) = name)
    (hsize : readU32 (((makeWavHeader sampleRate layout true).drop cursor).take 8) 4 = size)
    (heven : size % 2 = 0) (hfit : cursor + 8 + size ≤ 44 + 2 * samples.length) :
    ReadWav.chunkAt (canonical sampleRate layout samples) (44 + 2 * samples.length) cursor =
      some ⟨name, size, cursor + 8, cursor + 8 + size⟩ := by
  rw [ReadWav.chunkAt, checkedEnd_of_le (by omega) (by omega), readAt_canonical hcursor]
  simp only [Option.bind_eq_bind, Option.bind_some, hsize, hname]
  rw [checkedEnd_of_le hfit (by omega), Option.bind_some, if_neg (by omega)]
  rfl

/-- The format chunk. -/
theorem step_format (h : Fits sampleRate samples.length layout) :
    ReadWav.step (canonical sampleRate layout samples) (44 + 2 * samples.length) {} =
      some { format := canonicalFormat sampleRate, hasFmt := true, cursor := 36 } := by
  have hrate := h.rate_le
  rw [maxInt] at hrate
  have hsize : readU32 (((makeWavHeader sampleRate layout true).drop 12).take 8) 4 = 16 :=
    readU32_field rfl (by decide)
  have hchunk := @chunkAt_canonical _ _ _ (bytes "fmt ") _ _ h.riffSize_lt h.riffSize
    (show 12 + 8 ≤ kWavHeaderBytes by decide) rfl hsize rfl (by omega)
  have hformat : ReadWav.readFormat (((makeWavHeader sampleRate layout true).drop 20).take 16) =
      canonicalFormat sampleRate := by
    rw [ReadWav.readFormat, readU16_field (n := kPcm) rfl (by decide),
      readU16_field (n := 1) rfl (by decide), readU32_field (n := sampleRate.toNat) rfl (by omega),
      readU32_field (n := layout.byteRate) rfl (by rw [h.byteRate]; omega),
      readU16_field (n := 2) rfl (by decide), readU16_field (n := 16) rfl (by decide), h.byteRate]
    rfl
  have hvalid := validateFormat_iff.2 (validFormat_canonicalFormat h)
  rw [ReadWav.step]
  change (ReadWav.chunkAt _ _ 12).bind _ = _
  rw [hchunk, Option.bind_some, ReadWav.accept, if_pos rfl, if_neg (by decide)]
  change (ReadWav.readAt _ 20 16).bind _ = _
  rw [readAt_canonical (by decide), Option.bind_some, hformat]
  dsimp only
  rw [hvalid]
  rfl

/-- The data chunk. -/
theorem step_data (h : Fits sampleRate samples.length layout) :
    ReadWav.step (canonical sampleRate layout samples) (44 + 2 * samples.length)
        { format := canonicalFormat sampleRate, hasFmt := true, cursor := 36 } =
      some (canonicalWalk sampleRate samples) := by
  have hlt := h.riffSize_lt
  have hriff := h.riffSize
  have hdata := h.dataBytes
  have hsize : readU32 (((makeWavHeader sampleRate layout true).drop 36).take 8) 4 =
      layout.dataBytes := readU32_field rfl (by omega)
  have hchunk := @chunkAt_canonical _ _ _ (bytes "data") _ _ h.riffSize_lt h.riffSize
    (show 36 + 8 ≤ kWavHeaderBytes by decide) rfl hsize (by omega) (by omega)
  rw [ReadWav.step]
  change (ReadWav.chunkAt _ _ 36).bind _ = _
  rw [hchunk, Option.bind_some, ReadWav.accept]
  dsimp only
  rw [if_neg (by decide), if_pos rfl, if_neg Bool.false_ne_true, canonicalWalk, hdata]

/-- **A canonical file is parsed.** -/
theorem parse_canonical (h : Fits sampleRate samples.length layout) :
    parse (canonical sampleRate layout samples) = some (canonicalWalk sampleRate samples) := by
  have hlt := h.riffSize_lt
  have hriff := h.riffSize
  have hlength := length_canonical sampleRate layout samples
  have hsize : readU32 (((makeWavHeader sampleRate layout true).drop 0).take 12) 4 =
      layout.riffSize := readU32_field rfl hlt
  have hwalk : ReadWav.walk (canonical sampleRate layout samples) (44 + 2 * samples.length) {} =
      some (canonicalWalk sampleRate samples) := by
    rw [ReadWav.walk_eq_bind, if_pos (show 12 < 44 + 2 * samples.length by omega), step_format h,
      Option.bind_some, ReadWav.walk_eq_bind, if_pos (show 36 < 44 + 2 * samples.length by omega),
      step_data h, Option.bind_some, ReadWav.walk_eq_bind,
      if_neg (show
        ¬(canonicalWalk sampleRate samples).cursor < 44 + 2 * samples.length from Nat.lt_irrefl _)]
  have hmagic : ¬((((makeWavHeader sampleRate layout true).drop 0).take 12).take 4 ≠ bytes "RIFF" ∨
      ((((makeWavHeader sampleRate layout true).drop 0).take 12).drop 8).take 4 ≠
        bytes "WAVE") := not_or.2 ⟨fun h => h rfl, fun h => h rfl⟩
  rw [parse, if_neg (by omega), readAt_canonical (by decide), Option.bind_eq_bind,
    Option.bind_some, if_neg hmagic, hsize, if_neg (by omega),
    checkedEnd_of_le (by omega) (by omega), Option.bind_eq_bind, Option.bind_some,
    show 8 + layout.riffSize = 44 + 2 * samples.length by omega, hwalk, Option.bind_eq_bind,
    Option.bind_some, if_neg]
  simp [canonicalWalk, canonicalFormat]

/-- Frames that are decoded one by one. -/
theorem exists_mapM_range {f : ℕ → Option Wav.Sample}
    (h : ∀ i (hi : i < samples.length), ∃ y : Finite binary32, f i = some (some y) ∧
      y.value = level samples[i]) :
    ∃ decoded : List (Finite binary32),
      (List.range samples.length).mapM f = some (decoded.map some) ∧
        decoded.map Finite.value = samples.map level := by
  have hcount : ∀ count ≤ samples.length, ∃ decoded : List (Finite binary32),
      (List.range count).mapM f = some (decoded.map some) ∧
        decoded.map Finite.value = (samples.take count).map level := by
    intro count
    induction count with
    | zero => exact fun _ => ⟨[], rfl, rfl⟩
    | succ count ih =>
      intro hle
      obtain ⟨decoded, hdecoded, hvalues⟩ := ih (Nat.le_of_succ_le hle)
      obtain ⟨y, hy, hvalue⟩ := h count hle
      refine ⟨decoded ++ [y], ?_, ?_⟩
      · rw [List.range_succ, List.mapM_append, hdecoded, List.mapM_cons, hy, List.map_append]
        rfl
      · rw [List.map_append, hvalues, List.take_succ_eq_append_getElem hle, List.map_append,
          List.map_singleton, List.map_singleton, hvalue]
  have hall := hcount samples.length le_rfl
  rwa [List.take_length] at hall

/-- **A canonical file is read back.** -/
theorem readsBack_canonical (h : Fits sampleRate samples.length layout)
    (hpcm : ∀ pcm ∈ samples, IsPcm pcm) :
    ReadsBack (canonical sampleRate layout samples) sampleRate samples := by
  have hparse := parse_canonical h
  have hparsed := parsed_of_parse hparse
  have hframes : frames (canonicalWalk sampleRate samples) = samples.length :=
    Nat.mul_div_cancel_left _ (by decide)
  have hframe : ∀ i (hi : i < samples.length), ∃ y : Finite binary32,
      frameAt (canonical sampleRate layout samples) (canonicalWalk sampleRate samples) i =
        some (some y) ∧ y.value = level samples[i] := by
    intro i hi
    obtain ⟨y, hy, hvalue⟩ := exists_mean_pcm (hpcm _ (List.getElem_mem hi))
    refine ⟨y, ?_, hvalue⟩
    have hread : readU16 (canonical sampleRate layout samples) (44 + i * 2 + 0 * (16 / 8)) =
        ofLittleEndian (encodePcm samples[i]) := by
      rw [readU16, canonical, Nat.add_assoc, ← List.drop_drop,
        List.drop_left' (show (makeWavHeader _ _ _).length = 44 from rfl), Nat.zero_mul, Nat.add_zero,
        Nat.mul_comm, slice_flatMap_encodePcm hi]
    have hmix : mixAt (canonicalFormat sampleRate) (canonical sampleRate layout samples)
        (44 + i * 2) = some (Number.add (Number.zero false)
          (pcmSample (readU16 (canonical sampleRate layout samples)
            (44 + i * 2 + 0 * (16 / 8))))) := rfl
    rw [frameAt]
    change (mixAt (canonicalFormat sampleRate) _ (44 + i * 2)).map _ = _
    rw [hmix, hread, pcmSample, pcmValue_encodePcm (hpcm _ (List.getElem_mem hi)), Option.map_some]
    exact congrArg some hy
  refine ⟨stateOf (canonicalWalk sampleRate samples), ?_, ?_, ?_⟩
  · rw [openFile_eq, hparse, Option.map_some]
  · rw [← hframes]
    rfl
  · obtain ⟨decoded, hdecoded, hvalues⟩ := exists_mapM_range hframe
    refine ⟨decoded, ?_, hvalues⟩
    have hall := readMonoFrames_all hparsed
    rw [hframes] at hall
    rw [← hdecoded, ← hall, ← hframes]
    rfl

end Canonical

end Resonantia.Io.WavWriter
