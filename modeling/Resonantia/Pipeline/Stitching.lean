import Mathlib.Tactic.SplitIfs
import Resonantia.Io.WavCanonical
import Resonantia.Pipeline.QuietBound
import Resonantia.Pipeline.Resume

/-!
# Stitching synthesized cores

Both pipelines synthesize a clip core by core and join the pieces at absolute output positions: a
core `[start, stop)` of the 16 kHz source takes the place of the output samples from
`5 * start / 2` to `5 * stop / 2`, rounded down. The piece of a core starts with its left context,
which is dropped; what the piece does not reach is filled with zeros.

`convert_file_bounded` checks the position before every core and the length behind the last one.
`convert_long` computes the length of each core from the positions of its ends, in `int`s.

## Main definitions

* `Pipeline.SynthesizedCore`: a core with its piece.
* `Pipeline.boundedStitch`: the stitching of `convert_file_bounded`, with its checks.
* `Pipeline.convertLongStitch`: the stitching of `convert_long`.
* `Pipeline.stitched`: the output, position by position.

## Main results

* `Pipeline.boundedStitch_spec`: on every partition of the source both stitch the same output.
* `Pipeline.exists_stitchCores_of_completes`: every completed synthesis loop stitches a partition.
-/

namespace Resonantia.Pipeline

open Slices Io

/-- A core of the source with the piece that was synthesized for it. -/
structure SynthesizedCore (α : Type) where
  start : ℕ
  stop : ℕ
  piece : List α

/-- The interval of a core in the source. -/
def SynthesizedCore.span {α : Type} (core : SynthesizedCore α) : ℕ × ℕ := (core.start, core.stop)

/-! ### The bounded pipeline -/

section Bounded

variable {α : Type} [Sample α] [Zero α]

/-- The checks of `convert_file_bounded` on the length of the source, and the length of the
output. -/
def boundedOutputSamples (sourceSamples : ℕ) : Except String ℕ := do
  require (2 ≤ sourceSamples) "invalid bounded WAV sample count"
  let scaledOutput ← orFail (checkedMul sourceSamples kOutputSampleRate)
    "bounded output length overflow"
  let outputSamples := scaledOutput / kInputSampleRate
  let _ ← orFail (WavWriter.wavOutputLayout kOutputSampleRate outputSamples)
    "failed to create incremental WAV staging"
  return outputSamples

/-- The checks on a synthesized piece. -/
def checkPiece (piece : List α) : Except String (List α) :=
  if piece.isEmpty then .error "bounded chunk synthesis failed"
  else if !piece.all Sample.isFinite then .error "bounded synthesis produced non-finite audio"
  else return piece

/-- One core of the synthesis loop: with a checkpoint the position is checked once more before the
core, and its samples are read back behind it. -/
def stitchCore (checkpoint : Bool) (leftContext : ℕ) (core : SynthesizedCore α)
    (rawOutput : RawFloatSpool α) : Except String (RawFloatSpool α) := do
  if checkpoint then checkAlignment rawOutput core.start core.stop
  let piece ← checkPiece core.piece
  let (committed, rawOutput) ← appendAligned piece leftContext core.start core.stop rawOutput
  if checkpoint then
    let _ ← committed
  return rawOutput

/-- The synthesis loop over all cores. -/
def stitchCores (checkpoint : Bool) (leftContext : ℕ) :
    List (SynthesizedCore α) → RawFloatSpool α → Except String (RawFloatSpool α)
  | [], rawOutput => .ok rawOutput
  | core :: cores, rawOutput => do
    let rawOutput ← stitchCore checkpoint leftContext core rawOutput
    stitchCores checkpoint leftContext cores rawOutput

/-- `convert_file_bounded` from the pieces of the cores to the raw output. -/
def boundedStitch (checkpoint : Bool) (sourceSamples pad : ℕ) (cores : List (SynthesizedCore α)) :
    Except String (RawFloatSpool α) := do
  let outputSamples ← boundedOutputSamples sourceSamples
  let rawOutput ← stitchCores checkpoint (outputIndex pad) cores .create
  require (rawOutput.sampleCount = outputSamples) "bounded synthesis output length mismatch"
  return rawOutput

end Bounded

/-! ### The legacy pipeline -/

section Legacy

variable {α : Type} [Zero α]

/-- The value of `static_cast<int>`. -/
def toInt (value : ℤ) : ℤ := Int.bmod value (2 ^ 32)

/-- `to_out`, in `long`s. -/
def toOut (s16k : ℤ) : ℤ := Int.tdiv (s16k * kOutputSampleRate) kInputSampleRate

/-- One core of the stitching loop of `convert_long`. -/
def convertLongCore (leftTgt : ℤ) (core : SynthesizedCore α) (out : List α) :
    Except String (List α) :=
  if core.piece.isEmpty then .error "chunk synthesis failed"
  else if core.piece.length > intMax then
    .error "chunk synthesis exceeded the supported sample range"
  else
    let coreLen := toInt (toOut core.stop - toOut core.start)
    let avail := toInt core.piece.length - leftTgt
    let take := max 0 (min avail coreLen)
    let out :=
      if take > 0 then out ++ slice core.piece leftTgt.toNat (leftTgt + take).toNat else out
    .ok (out ++ List.replicate (coreLen - take).toNat 0)

/-- The stitching loop of `convert_long`. -/
def convertLongCores (leftTgt : ℤ) : List (SynthesizedCore α) → List α → Except String (List α)
  | [], out => .ok out
  | core :: cores, out => do
    let out ← convertLongCore leftTgt core out
    convertLongCores leftTgt cores out

/-- `convert_long` from the pieces of the cores to the samples before the loudness is matched. -/
def convertLongStitch (pad : ℕ) (cores : List (SynthesizedCore α)) : Except String (List α) := do
  let leftTgt := toInt (toOut pad)
  let out ← convertLongCores leftTgt cores []
  if out.isEmpty then .error "long-audio synthesis produced no output"
  else if out.length > intMax then
    .error "long-audio synthesis exceeded the supported sample range"
  else return out

end Legacy

/-! ### The positions of the output -/

theorem Partitions.start_le {start n : ℕ} {cores : List (ℕ × ℕ)} (h : Partitions start cores n) :
    ∀ core ∈ cores, start ≤ core.1 := by
  induction h with
  | nil n => exact fun core hcore => absurd hcore List.not_mem_nil
  | cons hlt _ ih =>
    intro core hcore
    rcases List.mem_cons.1 hcore with rfl | hcore
    · exact le_rfl
    · exact hlt.le.trans (ih core hcore)

section Positions

/-- What the checks on the length of the source establish. -/
theorem of_boundedOutputSamples {n m : ℕ} (h : boundedOutputSamples n = .ok m) :
    2 ≤ n ∧ m = 5 * n / 2 ∧ m < 2 ^ 31 := by
  rw [boundedOutputSamples] at h
  obtain ⟨_, hn, h⟩ := bind_eq_ok.1 h
  obtain ⟨scaled, hscaled, h⟩ := bind_eq_ok.1 h
  obtain ⟨layout, hlayout, h⟩ := bind_eq_ok.1 h
  have hn := require_eq_ok.1 hn
  obtain rfl := eq_mul_of_checkedMul (orFail_eq_ok.1 hscaled)
  obtain rfl := Except.ok.inj h
  have hm : n * kOutputSampleRate / kInputSampleRate = 5 * n / 2 := by
    simp only [kOutputSampleRate, kInputSampleRate]
    omega
  have hfits := WavWriter.fits_of_wavOutputLayout (orFail_eq_ok.1 hlayout)
  have hriff := hfits.riffSize
  have hlt := hfits.riffSize_lt
  exact ⟨hn, hm, by omega⟩

/-- Positions up to the length of an accepted source are computed without wrapping. -/
theorem outputIndex_of_le {n m k : ℕ} (h : boundedOutputSamples n = .ok m) (hk : k ≤ n) :
    outputIndex k = 5 * k / 2 := by
  obtain ⟨-, hm, hlt⟩ := of_boundedOutputSamples h
  rw [outputIndex, u64_of_lt (by simp only [kOutputSampleRate]; omega)]
  simp only [kOutputSampleRate, kInputSampleRate]
  omega

theorem toOut_eq (k : ℕ) : toOut k = (5 * k / 2 : ℕ) := by
  rw [toOut, Int.tdiv_eq_ediv_of_nonneg (by positivity)]
  simp only [kOutputSampleRate, kInputSampleRate]
  omega

theorem toInt_of_lt {k : ℕ} (h : k < 2 ^ 31) : toInt k = k := by
  rw [toInt, Int.bmod_eq_of_le] <;> omega

end Positions

/-! ### The stitched output -/

section Stitched

variable {α : Type} [Zero α]

/-- The samples that a core fills. -/
def SynthesizedCore.samples (leftContext : ℕ) (core : SynthesizedCore α) : List α :=
  coreSamples core.piece leftContext (5 * core.stop / 2 - 5 * core.start / 2)

/-- The stitched output. -/
def stitched (leftContext : ℕ) (cores : List (SynthesizedCore α)) : List α :=
  cores.flatMap (SynthesizedCore.samples leftContext)

theorem stitched_cons (leftContext : ℕ) (core : SynthesizedCore α)
    (cores : List (SynthesizedCore α)) :
    stitched leftContext (core :: cores) = core.samples leftContext ++ stitched leftContext cores :=
  List.flatMap_cons

theorem length_samples (leftContext : ℕ) (core : SynthesizedCore α) :
    (core.samples leftContext).length = 5 * core.stop / 2 - 5 * core.start / 2 :=
  length_coreSamples _ _ _

/-- The samples of a core are those of its piece behind the left context, then zeros. -/
theorem getElem?_samples (leftContext : ℕ) (core : SynthesizedCore α) {i : ℕ}
    (hi : i < 5 * core.stop / 2 - 5 * core.start / 2) :
    (core.samples leftContext)[i]? = some (core.piece.getD (leftContext + i) 0) := by
  rw [SynthesizedCore.samples, coreSamples]
  generalize hn : 5 * core.stop / 2 - 5 * core.start / 2 = coreOutput at hi ⊢
  have htake : takeCount core.piece leftContext coreOutput =
      min coreOutput (core.piece.length - leftContext) := by
    rw [takeCount]
    split <;> omega
  rw [htake, List.getD_eq_getElem?_getD]
  by_cases hpiece : leftContext + i < core.piece.length
  · rw [List.getElem?_append_left (by rw [length_slice (by omega)]; omega), getElem?_slice,
      if_pos (by omega), List.getElem?_eq_getElem hpiece]
    rfl
  · by_cases hleft : leftContext ≤ core.piece.length
    · rw [List.getElem?_append_right (by rw [length_slice (by omega)]; omega),
        List.getElem?_replicate, if_pos (by rw [length_slice (by omega)]; omega),
        List.getElem?_eq_none (by omega)]
      rfl
    · have hnone : min coreOutput (core.piece.length - leftContext) = 0 := by omega
      rw [hnone, Nat.add_zero, slice_self, List.nil_append, Nat.sub_zero, List.getElem?_replicate,
        if_pos hi, List.getElem?_eq_none (by omega)]
      rfl

/-- The cores of a partition fill the output from its start to its end. -/
theorem length_stitched (leftContext : ℕ) {start n : ℕ} {cores : List (SynthesizedCore α)}
    (h : Partitions start (cores.map SynthesizedCore.span) n) :
    (stitched leftContext cores).length = 5 * n / 2 - 5 * start / 2 := by
  induction cores generalizing start with
  | nil =>
    cases h
    rw [Nat.sub_self]
    rfl
  | cons core cores ih =>
    rw [List.map_cons] at h
    cases h with
    | cons hlt hrest =>
      have hle := hrest.le
      rw [stitched_cons, List.length_append, length_samples, ih hrest]
      omega

/-- Each core of a partition fills the interval between the images of its ends. -/
theorem slice_stitched (leftContext : ℕ) {start n : ℕ} {cores : List (SynthesizedCore α)}
    (h : Partitions start (cores.map SynthesizedCore.span) n) :
    ∀ core ∈ cores, slice (stitched leftContext cores) (5 * core.start / 2 - 5 * start / 2)
      (5 * core.stop / 2 - 5 * start / 2) = core.samples leftContext := by
  induction cores generalizing start with
  | nil => exact fun core hcore => absurd hcore List.not_mem_nil
  | cons first cores ih =>
    have hlength := length_samples leftContext first
    rw [List.map_cons] at h
    cases h with
    | cons hlt hrest =>
      intro core hcore
      rw [stitched_cons]
      rcases List.mem_cons.1 hcore with rfl | hcore
      · rw [Nat.sub_self, slice_append_left _ _ (by omega)]
        exact slice_zero_of_length hlength
      · have hstart : first.stop ≤ core.start :=
          hrest.start_le core.span (List.mem_map_of_mem hcore)
        rw [← ih hrest core hcore, slice_append_right _ _ (by omega), hlength]
        congr 1 <;> omega

end Stitched

/-! ### The bounded pipeline stitches every partition -/

section Runs

variable {α : Type} [Sample α] [Zero α]

omit [Zero α] in
/-- The checks on a piece fail only if it is empty or holds a sample that is not finite. -/
theorem checkPiece_of_ne_nil {piece : List α} (h : piece ≠ []) :
    checkPiece piece =
      if piece.all Sample.isFinite then .ok piece
      else .error "bounded synthesis produced non-finite audio" := by
  rw [checkPiece, if_neg (by simpa using h)]
  cases piece.all Sample.isFinite <;> rfl

theorem finite_coreSamples (hzero : Sample.isFinite (0 : α) = true) {piece : List α}
    (h : piece.all Sample.isFinite = true) (leftContext coreOutput : ℕ) :
    ∀ x ∈ coreSamples piece leftContext coreOutput, Sample.isFinite x = true := by
  intro x hx
  rw [coreSamples] at hx
  rcases List.mem_append.1 hx with hx | hx
  · exact List.all_eq_true.1 h x (mem_of_mem_slice hx)
  · rw [List.eq_of_mem_replicate hx]
    exact hzero

/-- One core behind an aligned output: its samples join the output, unless its piece is refused. -/
theorem stitchCore_eq (checkpoint : Bool) (leftContext : ℕ) (hzero : Sample.isFinite (0 : α) = true) {n m : ℕ}
    (hn : boundedOutputSamples n = .ok m) {core : SynthesizedCore α} (hpiece : core.piece ≠ [])
    (hlt : core.start < core.stop) (hle : core.stop ≤ n) {rawOutput : RawFloatSpool α}
    (haligned : rawOutput.samples.length = 5 * core.start / 2) :
    if core.piece.all Sample.isFinite then
      ∃ t, stitchCore checkpoint leftContext core rawOutput = .ok t ∧
        t.samples = rawOutput.samples ++ core.samples leftContext
    else
      stitchCore checkpoint leftContext core rawOutput =
        .error "bounded synthesis produced non-finite audio" := by
  obtain ⟨-, hm, hm_lt⟩ := of_boundedOutputSamples hn
  have hstart := outputIndex_of_le hn (hlt.le.trans hle)
  have hstop := outputIndex_of_le hn hle
  have hcheck : checkAlignment rawOutput core.start core.stop = .ok () := by
    rw [checkAlignment, if_neg]
    rw [hstart, hstop, RawSampleSpool.sampleCount]
    omega
  have hchecked := checkPiece_of_ne_nil hpiece
  by_cases hfinite : core.piece.all Sample.isFinite = true
  · rw [if_pos hfinite] at hchecked ⊢
    have hlength := length_samples leftContext core
    obtain ⟨t, ht, hsamples⟩ := RawSampleSpool.append_of_finite rawOutput
      (core.samples leftContext) (finite_coreSamples hzero hfinite _ _) (by
        rw [haligned, hlength, offMax]
        omega)
    have happend : appendAligned core.piece leftContext core.start core.stop rawOutput =
        .ok (.ok (core.samples leftContext), t) := by
      rw [appendAligned_eq_ok, hstart, hstop]
      exact ⟨⟨haligned, by omega⟩, ht, rfl⟩
    refine ⟨t, ?_, hsamples⟩
    rw [stitchCore, hcheck, hchecked]
    cases checkpoint <;> simp only [bind, Except.bind, happend] <;> rfl
  · rw [if_neg hfinite] at hchecked ⊢
    rw [stitchCore, hcheck, hchecked]
    cases checkpoint <;> rfl

/-- The loop over the cores of a partition: the stitched samples join the output, unless a piece is
refused. -/
theorem stitchCores_eq (checkpoint : Bool) (leftContext : ℕ) (hzero : Sample.isFinite (0 : α) = true) {n m : ℕ}
    (hn : boundedOutputSamples n = .ok m) {start : ℕ} {cores : List (SynthesizedCore α)}
    (hpieces : ∀ core ∈ cores, core.piece ≠ [])
    (hpartition : Partitions start (cores.map SynthesizedCore.span) n)
    {rawOutput : RawFloatSpool α} (haligned : rawOutput.samples.length = 5 * start / 2) :
    if ∀ core ∈ cores, core.piece.all Sample.isFinite then
      ∃ t, stitchCores checkpoint leftContext cores rawOutput = .ok t ∧
        t.samples = rawOutput.samples ++ stitched leftContext cores
    else
      stitchCores checkpoint leftContext cores rawOutput =
        .error "bounded synthesis produced non-finite audio" := by
  induction cores generalizing start rawOutput with
  | nil =>
    rw [if_pos fun core hcore => absurd hcore List.not_mem_nil]
    exact ⟨rawOutput, rfl, (List.append_nil _).symm⟩
  | cons core cores ih =>
    rw [List.map_cons] at hpartition
    cases hpartition with
    | cons hlt hrest =>
      have hcore := stitchCore_eq checkpoint leftContext hzero hn (hpieces core List.mem_cons_self)
        hlt hrest.le haligned
      rw [stitchCores]
      by_cases hfinite : core.piece.all Sample.isFinite = true
      · rw [if_pos hfinite] at hcore
        obtain ⟨t, ht, hsamples⟩ := hcore
        have hlength := length_samples leftContext core
        have haligned' : t.samples.length = 5 * core.stop / 2 := by
          rw [hsamples, List.length_append, haligned, hlength]
          omega
        have hrec := ih (fun core hcore => hpieces core (List.mem_cons_of_mem _ hcore)) hrest
          haligned'
        simp only [ht, List.forall_mem_cons, hfinite, true_and]
        split_ifs at hrec ⊢
        · obtain ⟨u, hu, hu'⟩ := hrec
          exact ⟨u, hu, by rw [hu', hsamples, stitched_cons, List.append_assoc]⟩
        · exact hrec
      · rw [if_neg hfinite] at hcore
        rw [if_neg fun hall => hfinite (hall core List.mem_cons_self), hcore]
        rfl

/-! ### `convert_long` stitches the same output -/

omit [Sample α] in
/-- One core of `convert_long`. -/
theorem convertLongCore_eq {leftContext : ℕ} {core : SynthesizedCore α} (hpiece : core.piece ≠ [])
    (hlength : core.piece.length ≤ intMax) (hleft : leftContext < 2 ^ 31)
    (hlt : core.start < core.stop) (hstop : 5 * core.stop / 2 < 2 ^ 31) (out : List α) :
    convertLongCore leftContext core out = .ok (out ++ core.samples leftContext) := by
  have hlen : toInt (toOut core.stop - toOut core.start) =
      (5 * core.stop / 2 - 5 * core.start / 2 : ℕ) := by
    have hdifference : toOut core.stop - toOut core.start =
        (5 * core.stop / 2 - 5 * core.start / 2 : ℕ) := by
      rw [toOut_eq, toOut_eq]
      omega
    rw [hdifference, toInt_of_lt (by omega)]
  have hsize : toInt core.piece.length = core.piece.length :=
    toInt_of_lt (by rw [intMax] at hlength; omega)
  rw [convertLongCore, if_neg (by simpa using hpiece), if_neg (by omega)]
  dsimp only
  rw [hlen, hsize, SynthesizedCore.samples, coreSamples]
  generalize 5 * core.stop / 2 - 5 * core.start / 2 = coreOutput
  have htake : max 0 (min ((core.piece.length : ℤ) - leftContext) coreOutput) =
      (takeCount core.piece leftContext coreOutput : ℕ) := by
    rw [takeCount]
    split <;> omega
  have hle : takeCount core.piece leftContext coreOutput ≤ coreOutput := min_le_left _ _
  rw [htake]
  generalize takeCount core.piece leftContext coreOutput = take at hle ⊢
  have hrest : ((coreOutput : ℤ) - take).toNat = coreOutput - take := by omega
  have hend : ((leftContext : ℤ) + take).toNat = leftContext + take := by omega
  rw [hrest, hend, Int.toNat_natCast]
  by_cases hpos : (take : ℤ) > 0
  · rw [if_pos hpos, List.append_assoc]
  · obtain rfl : take = 0 := by omega
    rw [if_neg hpos, Nat.add_zero, slice_self, List.nil_append]

omit [Sample α] in
/-- The loop of `convert_long` over the cores of a partition. -/
theorem convertLongCores_eq {leftContext start n : ℕ} {cores : List (SynthesizedCore α)}
    (hpieces : ∀ core ∈ cores, core.piece ≠ [])
    (hlengths : ∀ core ∈ cores, core.piece.length ≤ intMax) (hleft : leftContext < 2 ^ 31)
    (hpartition : Partitions start (cores.map SynthesizedCore.span) n) (hn : 5 * n / 2 < 2 ^ 31)
    (out : List α) :
    convertLongCores leftContext cores out = .ok (out ++ stitched leftContext cores) := by
  induction cores generalizing start out with
  | nil => exact congrArg Except.ok (List.append_nil out).symm
  | cons core cores ih =>
    rw [List.map_cons] at hpartition
    cases hpartition with
    | cons hlt hrest =>
      have hle := hrest.le
      have hcore := convertLongCore_eq (hpieces core List.mem_cons_self)
        (hlengths core List.mem_cons_self) hleft hlt (by omega) out
      have hrec := ih (fun core hcore => hpieces core (List.mem_cons_of_mem _ hcore))
        (fun core hcore => hlengths core (List.mem_cons_of_mem _ hcore)) hrest
        (out ++ core.samples leftContext)
      rw [convertLongCores, hcore, stitched_cons, ← List.append_assoc, ← hrec]
      rfl

end Runs

/-! ### Both pipelines -/

variable {α : Type} [Sample α] [Zero α]

/-- **Both pipelines stitch the same output.** Take any accepted length of the source, any partition
of the source into cores and any pieces that are not empty. The alignment checks never fail: the
only error left is that of a piece with samples that are not finite. Otherwise the raw output has
`5 * n / 2` samples, every core fills the interval between the images of its ends with the samples
of its piece behind the left context and with zeros where the piece is short, and it is the output
of `convert_long`, which refuses pieces beyond the range of an `int`. -/
theorem boundedStitch_spec {n m pad : ℕ} {checkpoint : Bool} {cores : List (SynthesizedCore α)}
    (hzero : Sample.isFinite (0 : α) = true) (hn : boundedOutputSamples n = .ok m) (hpad : pad < n)
    (hpartition : Partitions 0 (cores.map SynthesizedCore.span) n)
    (hpieces : ∀ core ∈ cores, core.piece ≠ []) :
    match boundedStitch checkpoint n pad cores with
    | .error message =>
      message = "bounded synthesis produced non-finite audio" ∧
        ∃ core ∈ cores, ∃ x ∈ core.piece, Sample.isFinite x = false
    | .ok rawOutput =>
      rawOutput.sampleCount = 5 * n / 2 ∧
      (∀ core ∈ cores, ∀ i, 5 * core.start / 2 + i < 5 * core.stop / 2 →
        rawOutput.samples[5 * core.start / 2 + i]? =
          some (core.piece.getD (5 * pad / 2 + i) 0)) ∧
      ((∀ core ∈ cores, core.piece.length ≤ intMax) →
        convertLongStitch pad cores = .ok rawOutput.samples) := by
  obtain ⟨htwo, hm, hm_lt⟩ := of_boundedOutputSamples hn
  have hlength := length_stitched (5 * pad / 2) hpartition
  have hrun := stitchCores_eq checkpoint (5 * pad / 2) hzero hn hpieces hpartition
    (show (RawSampleSpool.create : RawFloatSpool α).samples.length = 5 * 0 / 2 from rfl)
  have hbounded : boundedStitch checkpoint n pad cores =
      (stitchCores checkpoint (5 * pad / 2) cores .create >>= fun rawOutput => do
        require (rawOutput.sampleCount = m) "bounded synthesis output length mismatch"
        return rawOutput) := by
    rw [boundedStitch, hn, ← outputIndex_of_le hn hpad.le]
    rfl
  split_ifs at hrun with hfinite
  · obtain ⟨rawOutput, hraw, hsamples⟩ := hrun
    rw [RawSampleSpool.samples_create, List.nil_append] at hsamples
    have hcount : rawOutput.sampleCount = 5 * n / 2 := by
      rw [RawSampleSpool.sampleCount, hsamples, hlength]
      omega
    have hok : boundedStitch checkpoint n pad cores = .ok rawOutput := by
      rw [hbounded, hraw]
      change (require (rawOutput.sampleCount = m) _ >>= fun _ => _) = _
      rw [require, if_pos (hcount.trans hm.symm)]
      rfl
    rw [hok]
    refine ⟨hcount, fun core hcore i hi => ?_, fun hlengths => ?_⟩
    · have hslice := slice_stitched (5 * pad / 2) hpartition core hcore
      have hget := getElem?_samples (5 * pad / 2) core (show i < _ by omega)
      rw [← hslice, getElem?_slice, if_pos (by omega)] at hget
      rw [hsamples, ← hget]
      rfl
    · have hleft : toInt (toOut pad) = (5 * pad / 2 : ℕ) := by
        rw [toOut_eq, toInt_of_lt (by omega)]
      have hcores := convertLongCores_eq hpieces hlengths (show 5 * pad / 2 < 2 ^ 31 by omega)
        hpartition (hm ▸ hm_lt) []
      rw [RawSampleSpool.sampleCount, hsamples] at hcount
      rw [convertLongStitch, hleft, hcores, hsamples]
      change (if _ then _ else _) = _
      rw [List.nil_append, if_neg (by rw [List.isEmpty_iff_length_eq_zero]; omega),
        if_neg (by rw [hcount, intMax]; omega)]
      rfl
  · have herror : boundedStitch checkpoint n pad cores =
        .error "bounded synthesis produced non-finite audio" := by
      rw [hbounded, hrun]
      rfl
    rw [herror]
    refine ⟨rfl, ?_⟩
    simp only [not_forall, List.all_eq_true] at hfinite
    obtain ⟨core, hcore, x, hx, hnot⟩ := hfinite
    exact ⟨core, hcore, x, hx, by simpa using hnot⟩

/-- Five samples in two cores, the second with a short piece. -/
def fiveSamples : List (SynthesizedCore ℤ) :=
  [⟨0, 2, [1, 2, 3, 4, 5, 6, 7, 8, 9, 10, 11]⟩, ⟨2, 5, [12, 13, 14, 15, 16, 17, 18, 19]⟩]

/-- The cores of an odd number of samples, behind a left context of five output samples. -/
theorem boundedStitch_spec_fiveSamples :
    ∃ rawOutput, boundedStitch true 5 2 fiveSamples = .ok rawOutput ∧
      rawOutput.sampleCount = 12 ∧ rawOutput.samples[7]? = some 19 ∧
      rawOutput.samples[8]? = some 0 ∧ convertLongStitch 2 fiveSamples = .ok rawOutput.samples := by
  have hspec := @boundedStitch_spec ℤ _ _ 5 12 2 true fiveSamples rfl rfl (by decide)
    (.cons (by decide) (.cons (by decide) (.nil 5))) (by decide)
  rcases hrun : boundedStitch true 5 2 fiveSamples with message | rawOutput
  · rw [hrun] at hspec
    obtain ⟨-, core, -, x, -, hx⟩ := hspec
    cases hx
  · rw [hrun] at hspec
    obtain ⟨hcount, hcores, hlegacy⟩ := hspec
    have hlast := hcores ⟨2, 5, [12, 13, 14, 15, 16, 17, 18, 19]⟩ (.tail _ (.head _))
    exact ⟨rawOutput, rfl, hcount, hlast 2 (by decide), hlast 3 (by decide), hlegacy (by decide)⟩

/-! ### The synthesis loop stitches -/

section Loop

open CachedLoop

variable [LE α] [DecidableLE α] [FrameEnergy α] {conversion : BoundedConversion α}
  {layout : ChunkLayout} {processedF0 rawF0 : RawFloatSpool α}

omit [FrameEnergy α] in
theorem checkPiece_of_corePiece {coreStart coreEnd : ℕ} {piece : List α}
    (h : corePiece conversion layout processedF0 rawF0 coreStart coreEnd = .ok piece) :
    checkPiece piece = .ok piece := by
  have hcore : corePiece conversion layout processedF0 rawF0 coreStart coreEnd =
      (synthInput conversion.filtered layout processedF0 rawF0 coreStart coreEnd >>= fun input =>
        checkPiece (conversion.synthSegment input.segment input.f0 input.uv input.firstF0)) := rfl
  rw [hcore] at h
  obtain ⟨input, -, hpiece⟩ := bind_eq_ok.1 h
  have hvalue := hpiece
  rw [checkPiece] at hvalue
  split_ifs at hvalue
  rw [← Except.ok.inj hvalue] at hpiece ⊢
  exact hpiece

/-- Every completed synthesis loop stitches the pieces of a partition of the source. -/
theorem exists_stitchCores_of_completes {s t : SynthState α}
    (hprevious : s.planner.previous ≤ s.planner.samples)
    (h : (coreLoop conversion layout processedF0 rawF0).Completes s t) :
    ∃ cores : List (SynthesizedCore α),
      Partitions s.planner.previous (cores.map SynthesizedCore.span) s.planner.samples ∧
        stitchCores false (leftOutputContext layout) cores s.rawOutput = .ok t.rawOutput := by
  obtain ⟨hvisits, hfinal⟩ := h
  induction hvisits using Relation.ReflTransGen.head_induction_on with
  | refl =>
    have hend : t.planner.samples ≤ t.planner.previous := by
      by_contra hlt
      have hnext : t.planner.next conversion.filtered =
          (t.planner.advance conversion.filtered).map some := if_neg (by omega)
      rcases hadvance : t.planner.advance conversion.filtered with message | core <;>
        rw [hadvance] at hnext <;> cases hnext.symm.trans hfinal
    refine ⟨[], ?_, rfl⟩
    rw [Nat.le_antisymm hprevious hend]
    exact .nil _
  | @head before _ hstep _ ih =>
    obtain ⟨⟨⟨coreStart, coreEnd⟩, planner⟩, samples, hnext, hcompute, hadvance⟩ := hstep
    obtain ⟨piece, hpiece, rfl⟩ := coreLoop_compute.mp hcompute
    obtain ⟨haligned, rawOutput, happend, rfl⟩ := coreLoop_advance.mp hadvance
    obtain ⟨-, rfl, rfl, hlt, hle, hsamples⟩ := QuietCorePlanner.next_spec hnext
    obtain ⟨cores, hpartition, hrest⟩ := ih (by dsimp only; omega)
    refine ⟨⟨before.planner.previous, planner.previous, piece⟩ :: cores, .cons hlt (hsamples ▸ hpartition), ?_⟩
    have hcore : stitchCore false (leftOutputContext layout)
        ⟨before.planner.previous, planner.previous, piece⟩ before.rawOutput = .ok rawOutput := by
      rw [stitchCore, checkPiece_of_corePiece hpiece]
      simp only [bind, Except.bind, appendAligned_eq_ok.mpr ⟨haligned, happend, rfl⟩]
      rfl
    rw [stitchCores, hcore]
    exact hrest

end Loop

end Resonantia.Pipeline
