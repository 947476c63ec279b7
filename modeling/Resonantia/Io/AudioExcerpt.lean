import Resonantia.Io.WavProtocol

/-!
# Audio excerpts

`write_audio_excerpt` copies a range of a mono 16-bit WAV file to a file of its own. The frames are
decoded to floats in blocks, and the writer encodes the floats again in blocks of another size.
Every system call may fail or be the last thing that the process does.

## Main definitions

* `Io.AudioExcerpt.clockRange`, `Io.AudioExcerpt.excerptFrames`: the checks of a range.
* `Io.AudioExcerpt.readSamples`, `Io.AudioExcerpt.writeAudioExcerpt`: the copy.
* `Io.AudioExcerpt.pcmData`: the bytes of the data chunk of a file.

## Main results

* `Io.AudioExcerpt.readSamples_spec`: the floats of a range are encoded to the bytes that they came
  from.
* `Io.AudioExcerpt.writeAudioExcerpt_lossless`: so is the file that a copy leaves.
-/

namespace Resonantia.Io.AudioExcerpt

open ByteString BinaryFloat Effect FileSystem FloatWord Wav WavWriter

/-! ### The range -/

/-- `std::llround`. -/
def llround (q : ℚ) : ℤ := if q < 0 then -⌊-q + 1 / 2⌋ else ⌊q + 1 / 2⌋

/-- The checks of a range without a file; only finite numbers are numbers here. -/
def clockRange (start stop : Number binary64) : Option (Double × Double) := do
  let start ← start
  let stop ← stop
  if start.value < 0 ∨ stop.value ≤ start.value ∨ 15 < stop.sub start ∨ 600 < stop.value then none
  else some (start, stop)

/-- A time in frames. -/
def frameOf (time : Double) (sampleRate : ℕ) : ℕ :=
  (llround (binary64.nearestSigned (time.value * sampleRate))).toNat

/-- The first frame of a range and the frame after its last one. -/
def excerptFrames (m : WavChunkReader.WavMetadata) (start stop : Double) : Option (ℕ × ℕ) :=
  if m.encoding ≠ .pcm16 ∨ m.channels ≠ 1 ∨ m.sampleRate = 0 ∨
      binary64.nearestSigned (binary64.nearestSigned m.frameCount / m.sampleRate) < stop.value then
    none
  else
    let first := frameOf start m.sampleRate
    let last := frameOf stop m.sampleRate
    if last ≤ first ∨ m.frameCount < last ∨ 4000000 < last - first then none
    else some (first, last)

/-! ### The copy -/

/-- A reader: the content behind its descriptor, and its state. -/
structure Reader where
  content : Bytes
  state : WavChunkReader.State

/-- `WavChunkReader::open`; the calls that read fail together. -/
def openReader (path : FileName) : WriterM (Option Reader) := do
  if path = [] ∨ 0 ∈ path then pure none
  else if ← succeeds (check "open") then
    let w ← get
    match find w.files path with
    | none => pure none
    | some content =>
      if ← succeeds (check "pread") then
        pure ((WavChunkReader.openFile content).map (Reader.mk content))
      else pure none
  else pure none

/-- `read_mono_frames`: the words of the samples. -/
def Reader.decode (reader : Reader) (first count : ℕ) : Option (List UInt32) := do
  let samples ← WavChunkReader.readMonoFrames reader.content reader.state first count
  samples.mapM fun sample => sample.map ofSingle

/-- `read_mono_frames` with the second look at the file. -/
def readSamples (reader : Reader) (first count : ℕ) : WriterM (Option (List UInt32)) := do
  if ← succeeds (check "pread") then
    match reader.decode first count with
    | none => pure none
    | some samples => if ← succeeds (check "fstat") then pure (some samples) else pure none
  else pure none

/-- `open`, `append_decoded_pcm16` and `commit`. -/
def writeAll (process : ℕ) (output : Target) (sampleRate : ℕ) (samples : List UInt32) :
    WriterM Bool := do
  if ← openWriter process output sampleRate samples.length then
    if ← appendImpl samples true then commit else pure false
  else pure false

/-- The writer from its constructor to its destructor. -/
def writeSamples (process : ℕ) (output : Target) (sampleRate : ℕ) (samples : List UInt32) :
    WriterM Bool := do
  setState none
  let written ← writeAll process output sampleRate samples
  abort
  pure written

/-- `write_audio_excerpt`. -/
def writeAudioExcerpt (process : ℕ) (input : FileName) (output : Target)
    (start stop : Number binary64) : WriterM Bool := do
  match clockRange start stop with
  | none => pure false
  | some (start, stop) =>
    match ← openReader input with
    | none => pure false
    | some reader =>
      match excerptFrames reader.state.metadata start stop with
      | none => pure false
      | some (first, last) =>
        match ← readSamples reader first (last - first) with
        | none => pure false
        | some samples => writeSamples process output reader.state.metadata.sampleRate samples

/-- The bytes of the data chunk of a file. -/
def pcmData (content : Bytes) : Option Bytes :=
  (WavChunkReader.openFile content).map fun state =>
    (content.drop state.dataOffset).take state.dataBytes

/-! ### Decoding and encoding -/

/-- A float at the level of a 16-bit value is taken, and encoded as this value. -/
theorem quantize_of_level {word : UInt32} {pcm : ℤ} (hpcm : IsPcm pcm)
    (hfinite : isFinite word = true) (hvalue : value word = level pcm) :
    rejects true word = false ∧ quantize true word = pcm := by
  obtain ⟨hlow, hhigh⟩ := hpcm
  have hscaled : value word * 32768 = pcm := by
    rw [hvalue, level]
    exact div_mul_cancel₀ _ (by norm_num)
  have hnatAbs : binary32.Representable (pcm.natAbs : ℚ) := by
    refine Format.representable_natCast ?_ (by decide)
    change pcm.natAbs < 2 ^ 24
    omega
  have hnearest : binary32.nearestSigned pcm = pcm := by
    rw [Format.nearestSigned]
    split_ifs with hneg
    · have habs : -(pcm : ℚ) = pcm.natAbs := by
        rw [Nat.cast_natAbs, abs_of_neg (by exact_mod_cast hneg), Int.cast_neg]
      rw [habs, Format.nearest_of_representable hnatAbs, ← habs, neg_neg]
    · have habs : (pcm : ℚ) = pcm.natAbs := by
        rw [Nat.cast_natAbs, abs_of_nonneg (by exact_mod_cast not_lt.1 hneg)]
      rw [habs, Format.nearest_of_representable hnatAbs]
  have htruncate : truncate (pcm : ℚ) = pcm := by
    rw [truncate]
    split_ifs
    · rw [← Int.cast_neg, Int.floor_intCast, neg_neg]
    · exact Int.floor_intCast pcm
  constructor
  · rw [rejects, hscaled, hnearest, htruncate, hvalue, level, hfinite]
    have hlow' : (-32768 : ℚ) ≤ pcm := by exact_mod_cast hlow
    have hhigh' : (pcm : ℚ) ≤ 32767 := by exact_mod_cast hhigh
    have hbelow : ¬(pcm : ℚ) / 32768 < -1 := by
      rw [not_lt, le_div_iff₀ (by norm_num)]
      linarith
    have habove : ¬(32767 : ℚ) / 32768 < pcm / 32768 :=
      not_lt.2 (div_le_div_of_nonneg_right hhigh' (by norm_num))
    simp [hbelow, habove]
  · rw [quantize, if_pos rfl, hscaled, hnearest, htruncate]

/-- Two bytes are decoded to a 16-bit value, which is encoded as these bytes. -/
theorem encodePcm_pcmValue {data : Bytes} (h : data.length = 2) :
    IsPcm (pcmValue (ofLittleEndian data)) ∧ encodePcm (pcmValue (ofLittleEndian data)) = data := by
  have hlt := ofLittleEndian_lt data
  rw [h] at hlt
  have hbits : (pcmValue (ofLittleEndian data) % 65536).toNat = ofLittleEndian data := by
    rw [pcmValue]
    split_ifs <;> omega
  constructor
  · rw [IsPcm, pcmValue]
    split_ifs <;> omega
  · rw [encodePcm, hbits, ← h, littleEndian_ofLittleEndian]

/-- A mono 16-bit file. -/
structure MonoPcm (w : ReadWav.Walk) : Prop where
  audioFormat : w.format.audioFormat = kPcm
  channels : w.format.channels = 1

section Decoding

variable {content : Bytes} {w : ReadWav.Walk}

theorem MonoPcm.bitsPerSample (hmono : MonoPcm w) (h : Parsed content w) :
    w.format.bitsPerSample = 16 := by
  rcases h.format.encoding with ⟨-, hbits⟩ | ⟨haudio, -⟩
  · exact hbits
  · rw [hmono.audioFormat] at haudio
    exact absurd haudio (by decide)

theorem MonoPcm.blockAlign (hmono : MonoPcm w) (h : Parsed content w) : w.format.blockAlign = 2 := by
  rw [h.format.blockAlign, hmono.channels, hmono.bitsPerSample h]

/-- The bytes of a frame. -/
def frameBytes (content : Bytes) (w : ReadWav.Walk) (frame : ℕ) : Bytes :=
  (content.drop (w.dataOffset + 2 * frame)).take 2

/-- **One frame** is decoded to a float that is encoded as the bytes of the frame. -/
theorem exists_word (hmono : MonoPcm w) (h : Parsed content w) {frame : ℕ}
    (hframe : frame < frames w) :
    ∃ word, (frameAt content w frame).bind (Option.map ofSingle) = some word ∧
      rejects true word = false ∧ encodePcm (quantize true word) = frameBytes content w frame := by
  have hlength : (frameBytes content w frame).length = 2 := by
    have hle := h.frame_le (Nat.succ_le_of_lt hframe)
    have hdata := h.data_le
    rw [hmono.blockAlign h] at hle
    rw [frameBytes, List.length_take, List.length_drop]
    omega
  obtain ⟨hpcm, hencode⟩ := encodePcm_pcmValue hlength
  obtain ⟨y, hy, hvalue⟩ := exists_mean_pcm hpcm
  have hmix : mixAt w.format content (w.dataOffset + frame * w.format.blockAlign) =
      some (Number.add (Number.zero false)
        (pcmSample (ofLittleEndian (frameBytes content w frame)))) := by
    have hoffset : w.dataOffset + frame * 2 + 0 * (16 / 8) = w.dataOffset + 2 * frame := by omega
    rw [mixAt, hmono.channels, hmono.bitsPerSample h, hmono.blockAlign h, List.range_one,
      List.foldlM_cons, ReadWav.decode, if_pos hmono.audioFormat, hoffset]
    rfl
  have hframeAt : frameAt content w frame = some (some y) := by
    rw [frameAt, hmix, Option.map_some, mean, hmono.channels]
    exact congrArg some hy
  obtain ⟨haccepted, hquantize⟩ := quantize_of_level hpcm (isFinite_ofSingle y)
    ((value_ofSingle y).trans hvalue)
  refine ⟨ofSingle y, ?_, haccepted, ?_⟩
  · rw [hframeAt]
    rfl
  · rw [hquantize, hencode]

/-- Frames one by one. -/
theorem exists_words (hmono : MonoPcm w) (h : Parsed content w) {l : List ℕ}
    (hl : ∀ frame ∈ l, frame < frames w) :
    ∃ words, (l.mapM (frameAt content w)).bind (List.mapM (Option.map ofSingle)) = some words ∧
      words.length = l.length ∧ (∀ word ∈ words, rejects true word = false) ∧
        (words.map (quantize true)).flatMap encodePcm = l.flatMap (frameBytes content w) := by
  induction l with
  | nil => exact ⟨[], rfl, rfl, fun _ h => (nomatch h), rfl⟩
  | cons frame l ih =>
    obtain ⟨hfirst, hrest⟩ := List.forall_mem_cons.1 hl
    obtain ⟨word, hword, haccepted, hencode⟩ := exists_word hmono h hfirst
    obtain ⟨words, hwords, hlength, hall, hflat⟩ := ih hrest
    obtain ⟨sample, hsample, hmap⟩ := Option.bind_eq_some_iff.1 hword
    obtain ⟨samples, hsamples, hmapM⟩ := Option.bind_eq_some_iff.1 hwords
    refine ⟨word :: words, ?_, ?_, List.forall_mem_cons.2 ⟨haccepted, hall⟩, ?_⟩
    · rw [List.mapM_cons, hsample, Option.bind_eq_bind, Option.bind_some, hsamples,
        Option.bind_eq_bind, Option.bind_some, Option.pure_def, Option.bind_some, List.mapM_cons,
        hmap, Option.bind_eq_bind, Option.bind_some, hmapM]
      rfl
    · rw [List.length_cons, List.length_cons, hlength]
    · rw [List.map_cons, List.flatMap_cons, List.flatMap_cons, hencode, hflat]

/-- The bytes of consecutive frames. -/
theorem flatMap_frameBytes (content : Bytes) (w : ReadWav.Walk) (first count : ℕ) :
    (List.range' first count).flatMap (frameBytes content w) =
      (content.drop (w.dataOffset + 2 * first)).take (2 * count) := by
  induction count generalizing first with
  | zero => rfl
  | succ count ih =>
    rw [List.range'_succ, List.flatMap_cons, ih, frameBytes, Nat.mul_succ, ← Nat.add_assoc,
      show 2 * (count + 1) = 2 + 2 * count by omega, List.take_add, List.drop_drop]

/-- **A range is decoded without a loss.** The blocks of the loop do not matter. -/
theorem decode_spec (hmono : MonoPcm w) (h : Parsed content w) {first last : ℕ}
    (hfirst : first ≤ last) (hlast : last ≤ frames w) :
    ∃ words, Reader.decode ⟨content, stateOf w⟩ first (last - first) = some words ∧
      words.length = last - first ∧ (∀ word ∈ words, rejects true word = false) ∧
        (words.map (quantize true)).flatMap encodePcm =
          (content.drop (w.dataOffset + 2 * first)).take (2 * (last - first)) := by
  have hrange : first + (last - first) ≤ frames w := by omega
  have hread := readMonoFrames_eq h hrange
  obtain ⟨words, hwords, hlength, hall, hflat⟩ := exists_words hmono h
    (l := List.range' first (last - first)) fun frame hmem => by
      have := (List.mem_range'_1.1 hmem).2
      omega
  rw [List.length_range'] at hlength
  rw [flatMap_frameBytes] at hflat
  refine ⟨words, ?_, hlength, hall, hflat⟩
  rw [Reader.decode, hread]
  exact hwords

end Decoding

/-! ### Completed copies -/

section Copies

variable {process : ℕ} {files : Files}

theorem kept_trans {w w' : World Writer} (h : Kept process files w) (h' : Kept process w.files w') :
    Kept process files w' :=
  fun other hother => (h' other hother).trans (h other hother)

/-- Appending and committing as steps of a longer operation. -/
theorem append_spec (session : Option WavWriter.Session) (samples : List UInt32) :
    Triple (Left process files session) (appendImpl samples true)
      (fun reply => Left process files (session.map (·.append true samples reply)))
      (fun _ _ => True) := by
  intro w hw
  exact triple_conseq (appendImpl_spec hw.agrees samples true) (fun _ h => h)
    (fun _ _ ht => ⟨kept_trans hw.kept ht.2.kept, ht.2.agrees⟩) (fun _ _ _ => trivial) w ⟨rfl, rfl⟩

/-- The file of these samples is at the target. -/
def Written (output : Target) (sampleRate : ℕ) (samples : List UInt32) (w : World Writer) : Prop :=
  ∃ layout, wavOutputLayout sampleRate samples.length = some layout ∧
    find w.files output.path =
      some (canonical sampleRate layout (samples.map (quantize true)))

theorem commit_written_spec {x : WavWriter.Session} :
    Triple (Left process files (some x)) commit
      (fun reply w => reply = true → w.memory.state = none ∧
        ∃ layout, wavOutputLayout x.sampleRate x.expectedSamples = some layout ∧
          find w.files x.target.path = some (canonical x.sampleRate layout x.samples))
      (fun _ _ => True) := by
  intro w hw
  refine triple_conseq (commit_spec hw.agrees) (fun _ h => h) (fun reply t ht hreply => ?_)
    (fun _ _ _ => trivial) w ⟨rfl, rfl⟩
  rw [if_pos hreply] at ht
  obtain ⟨hstate, y, hy, hcommitted⟩ := ht
  obtain rfl := Option.some.inj hy
  exact ⟨hstate, hcommitted.content⟩

theorem writeAll_spec (output : Target) (sampleRate : ℕ) (samples : List UInt32) :
    Triple (Idle process files none) (writeAll process output sampleRate samples)
      (fun reply w => reply = true → w.memory.state = none ∧ Written output sampleRate samples w)
      (fun _ _ => True) := by
  refine triple_bind (triple_raise (@openWriter_spec process files none (fun _ h => (nomatch h)) none
    output sampleRate samples.length) fun _ _ _ => trivial) fun opened => ?_
  cases opened with
  | false => exact triple_pure fun _ _ h => (nomatch h)
  | true =>
    refine triple_bind (append_spec _ samples) fun appended => ?_
    cases appended with
    | false => exact triple_pure fun _ _ h => (nomatch h)
    | true => exact commit_written_spec

/-- The destructor of a writer that was committed does nothing. -/
theorem writeSamples_spec (output : Target) (sampleRate : ℕ) (samples : List UInt32) :
    Triple (fun _ => True) (writeSamples process output sampleRate samples)
      (fun reply w => reply = true → Written output sampleRate samples w) (fun _ _ => True) := by
  intro w _
  refine triple_bind (P := fun w' => w' = w) (Q := fun _ => Idle process w.files none) ?_
    (fun _ => ?_) w rfl
  · rintro _ rfl
    exact ⟨fun _ _ => rfl, rfl⟩
  refine triple_bind (writeAll_spec output sampleRate samples) fun reply => ?_
  cases reply with
  | false =>
    exact triple_bind (triple_trivial abort) fun _ => triple_pure fun _ _ h => (nomatch h)
  | true =>
    refine triple_bind (Q := fun _ => Written output sampleRate samples) ?_ fun _ =>
      triple_pure fun _ ht _ => ht
    refine triple_get_bind fun t ht => ?_
    obtain ⟨hstate, hwritten⟩ := ht rfl
    rw [hstate]
    refine triple_pure ?_
    rintro _ rfl
    exact hwritten

/-- The bytes that a reader finds in the data chunk of a file of these samples. -/
theorem pcmData_canonical {sampleRate : ℤ} {layout : WavOutputLayout} {samples : List ℤ}
    (h : wavOutputLayout sampleRate samples.length = some layout) :
    pcmData (canonical sampleRate layout samples) = some (samples.flatMap encodePcm) := by
  rw [pcmData, openFile_eq, parse_canonical (fits_of_wavOutputLayout h), Option.map_some,
    Option.map_some]
  change some (((makeWavHeader sampleRate layout true ++ samples.flatMap encodePcm).drop 44).take
    (2 * samples.length)) = _
  rw [List.drop_left' (show (makeWavHeader _ _ _).length = 44 from rfl), ← length_flatMap_encodePcm,
    List.take_length]

end Copies

/-- The frames of a file that a copy takes. -/
def selectedFrames (content : Bytes) (start stop : Number binary64) : Option (ℕ × ℕ) := do
  let (start, stop) ← clockRange start stop
  let state ← WavChunkReader.openFile content
  excerptFrames state.metadata start stop

/-- What an accepted range says about the file. -/
theorem selected_spec {content : Bytes} {start stop : Number binary64} {first last : ℕ}
    (h : selectedFrames content start stop = some (first, last)) :
    ∃ w, parse content = some w ∧ MonoPcm w ∧ first < last ∧ last ≤ frames w := by
  obtain ⟨⟨start', stop'⟩, -, h⟩ := Option.bind_eq_some_iff.1 h
  obtain ⟨state, hstate, h⟩ := Option.bind_eq_some_iff.1 h
  rw [openFile_eq] at hstate
  obtain ⟨w, hw, rfl⟩ := Option.map_eq_some_iff.1 hstate
  rw [excerptFrames] at h
  split_ifs at h with hbad
  dsimp only at h
  split_ifs at h with hrange
  obtain ⟨rfl, rfl⟩ := Prod.mk.inj (Option.some.inj h)
  simp only [not_or, not_not, not_le, not_lt] at hbad hrange
  refine ⟨w, hw, ⟨?_, hbad.2.1⟩, hrange.1, hrange.2.1⟩
  have hencoding : (if w.format.audioFormat = kPcm then WavChunkReader.WavEncoding.pcm16
    else .float32) = .pcm16 := hbad.1
  by_contra hne
  rw [if_neg hne] at hencoding
  cases hencoding

/-- **A range is encoded to the bytes that it was decoded from.** -/
theorem selected_lossless {content : Bytes} {start stop : Number binary64} {first last : ℕ}
    (h : selectedFrames content start stop = some (first, last)) :
    ∃ state data samples, WavChunkReader.openFile content = some state ∧
      pcmData content = some data ∧ first < last ∧ 2 * last ≤ data.length ∧
        Reader.decode ⟨content, state⟩ first (last - first) = some samples ∧
          (∀ sample ∈ samples, rejects true sample = false) ∧
            (samples.flatMap fun sample => encodePcm (quantize true sample)) =
              (data.drop (2 * first)).take (2 * (last - first)) := by
  obtain ⟨w, hw, hmono, hless, hlast⟩ := selected_spec h
  have hparsed := parsed_of_parse hw
  have hopen : WavChunkReader.openFile content = some (stateOf w) := by
    rw [openFile_eq, hw, Option.map_some]
  obtain ⟨samples, hdecode, -, hall, hflat⟩ := decode_spec hmono hparsed hless.le hlast
  have hdata := hparsed.data_le
  have hframe := hparsed.frame_le hlast
  rw [hmono.blockAlign hparsed] at hframe
  refine ⟨stateOf w, (content.drop w.dataOffset).take w.dataSize, samples, hopen, ?_, hless, ?_,
    hdecode, hall, ?_⟩
  · rw [pcmData, hopen]
    rfl
  · rw [List.length_take, List.length_drop]
    omega
  · rw [← List.flatMap_map, hflat, List.drop_take, List.take_take, List.drop_drop,
      min_eq_left (by omega)]

theorem openReader_spec (input : FileName) (content : Bytes) :
    Triple (fun w => find w.files input = some content) (openReader input)
      (fun reader w => find w.files input = some content ∧ ∀ r, reader = some r →
        r.content = content ∧ WavChunkReader.openFile content = some r.state)
      (fun _ _ => True) := by
  have hcheck : ∀ message, Triple (fun w : World Writer => find w.files input = some content)
      (succeeds (check message)) (fun _ w => find w.files input = some content)
      (fun _ _ => True) := fun message =>
    triple_succeeds (fun _ hw => hw) fun _ hw _ => ⟨hw, trivial⟩
  rw [openReader]
  split_ifs
  · exact triple_pure fun _ hw => ⟨hw, fun _ h => (nomatch h)⟩
  refine triple_bind (hcheck "open") fun opened => ?_
  cases opened with
  | false => exact triple_pure fun _ hw => ⟨hw, fun _ h => (nomatch h)⟩
  | true =>
  refine triple_get_bind fun w hw => ?_
  rw [hw]
  refine triple_bind (triple_pre (hcheck "pread") fun _ h => h ▸ hw) fun read => ?_
  cases read with
  | false => exact triple_pure fun _ hw => ⟨hw, fun _ h => (nomatch h)⟩
  | true =>
    refine triple_pure fun _ hw => ⟨hw, fun r hr => ?_⟩
    obtain ⟨state, hstate, rfl⟩ := Option.map_eq_some_iff.1 hr
    exact ⟨rfl, hstate⟩

theorem readSamples_spec (reader : Reader) (first count : ℕ) :
    Triple (fun _ => True) (readSamples reader first count)
      (fun reply _ => ∀ samples, reply = some samples → reader.decode first count = some samples)
      (fun _ _ => True) := by
  have hcheck : ∀ message, Triple (fun _ : World Writer => True) (succeeds (check message))
      (fun _ _ => True) (fun _ _ => True) := fun message => triple_trivial _
  refine triple_bind (hcheck "pread") fun read => ?_
  cases read with
  | false => exact triple_pure fun _ _ _ h => (nomatch h)
  | true =>
  rw [if_pos rfl]
  cases hdecode : reader.decode first count with
  | none => exact triple_pure fun _ _ _ h => (nomatch h)
  | some samples =>
  refine triple_bind (hcheck "fstat") fun same => ?_
  cases same with
  | false => exact triple_pure fun _ _ _ h => (nomatch h)
  | true => exact triple_pure fun _ _ _ h => h

/-- A copy that is complete. -/
theorem writeAudioExcerpt_spec (process : ℕ) (input : FileName) (output : Target)
    (start stop : Number binary64) (content : Bytes) :
    Triple (fun w => find w.files input = some content)
      (writeAudioExcerpt process input output start stop)
      (fun reply w => reply = true → ∃ state first last samples,
        WavChunkReader.openFile content = some state ∧
          selectedFrames content start stop = some (first, last) ∧
            Reader.decode ⟨content, state⟩ first (last - first) = some samples ∧
              Written output state.metadata.sampleRate samples w) (fun _ _ => True) := by
  rw [writeAudioExcerpt]
  cases hclock : clockRange start stop with
  | none => exact triple_pure fun _ _ h => (nomatch h)
  | some range =>
  obtain ⟨start', stop'⟩ := range
  refine triple_bind (Q := fun reader w => find w.files input = some content ∧
    ∀ r, reader = some r → r.content = content ∧
      WavChunkReader.openFile content = some r.state) (openReader_spec input content)
    fun reader => ?_
  cases reader with
  | none => exact triple_pure fun _ _ h => (nomatch h)
  | some reader =>
  dsimp only
  cases hframes : excerptFrames reader.state.metadata start' stop' with
  | none => exact triple_pure fun _ _ h => (nomatch h)
  | some range =>
  obtain ⟨first, last⟩ := range
  refine triple_pre (triple_of_fact (p := reader.content = content ∧
    WavChunkReader.openFile content = some reader.state) (P := fun _ => True) ?_)
    fun w hw => ⟨hw.2 reader rfl, trivial⟩
  rintro ⟨rfl, hopen⟩
  refine triple_bind (readSamples_spec reader first (last - first)) fun samples => ?_
  cases samples with
  | none => exact triple_pure fun _ _ h => (nomatch h)
  | some samples =>
  refine triple_pre (triple_of_fact (p := reader.decode first (last - first) = some samples)
    (P := fun _ => True) fun hdecode => ?_) fun w hw => ⟨hw samples rfl, trivial⟩
  refine triple_conseq (writeSamples_spec output reader.state.metadata.sampleRate samples)
    (fun _ h => h) (fun reply w hw hreply => ?_) fun _ _ h => h
  refine ⟨reader.state, first, last, samples, hopen, ?_, hdecode, hw hreply⟩
  rw [selectedFrames, hclock, Option.bind_eq_bind, Option.bind_some, hopen]
  exact hframes

/-- **A copy is lossless.** The floats of every accepted range are encoded to the bytes that they
came from, whatever the blocks of the reader and of the writer; and a completed copy leaves a file
whose data are these bytes. -/
theorem writeAudioExcerpt_lossless (content : Bytes) (start stop : Number binary64) :
    (∀ first last, selectedFrames content start stop = some (first, last) →
      ∃ state data samples, WavChunkReader.openFile content = some state ∧
        pcmData content = some data ∧ first < last ∧ 2 * last ≤ data.length ∧
          Reader.decode ⟨content, state⟩ first (last - first) = some samples ∧
            (∀ sample ∈ samples, rejects true sample = false) ∧
              (samples.flatMap fun sample => encodePcm (quantize true sample)) =
                (data.drop (2 * first)).take (2 * (last - first))) ∧
      ∀ process input output w t, find w.files input = some content →
        exec (writeAudioExcerpt process input output start stop) w = (.ok true, t) →
          ∃ first last data written, selectedFrames content start stop = some (first, last) ∧
            pcmData content = some data ∧ find t.files output.path = some written ∧
              pcmData written = some ((data.drop (2 * first)).take (2 * (last - first))) := by
  refine ⟨fun first last hselected => selected_lossless hselected, ?_⟩
  intro process input output w t hinput hexec
  have hpost := writeAudioExcerpt_spec process input output start stop content w hinput
  rw [hexec] at hpost
  obtain ⟨state, first, last, samples, hopen, hselected, hdecode, layout, hlayout, hwritten⟩ :=
    hpost rfl
  obtain ⟨state', data, samples', hopen', hdata, -, -, hdecode', -, hflat⟩ :=
    selected_lossless hselected
  obtain rfl := Option.some.inj (hopen.symm.trans hopen')
  obtain rfl := Option.some.inj (hdecode.symm.trans hdecode')
  refine ⟨first, last, data, _, hselected, hdata, hwritten, ?_⟩
  rw [← List.length_map (quantize true)] at hlayout
  rw [pcmData_canonical hlayout, List.flatMap_map, hflat]

/-- Six frames at four a second. -/
def shortFile : Bytes := canonical 4 ⟨12, 48, 8⟩ [-32768, -1, 0, 1, 12345, 32767]

/-- A directory with this file. -/
def shortWorld : World Writer := ⟨[(bytes "in.wav", shortFile)], [], ⟨0, none⟩, quiet, 0⟩

/-- The frames from a quarter of a second to one and a half. -/
def shortCopy : WriterM Bool :=
  writeAudioExcerpt 7 (bytes "in.wav") sampleTarget (Number.ofRat (1 / 4)) (Number.ofRat (3 / 2))

theorem writeAudioExcerpt_lossless_short :
    ∃ first last data written,
      selectedFrames shortFile (Number.ofRat (1 / 4)) (Number.ofRat (3 / 2)) =
          some (first, last) ∧
        pcmData shortFile = some data ∧
          find (exec shortCopy shortWorld).2.files sampleTarget.path = some written ∧
            pcmData written = some ((data.drop (2 * first)).take (2 * (last - first))) := by
  have hexec : (exec shortCopy shortWorld).1.toOption = some true := by decide +kernel
  refine (writeAudioExcerpt_lossless shortFile (Number.ofRat (1 / 4)) (Number.ofRat (3 / 2))).2 7
    (bytes "in.wav") sampleTarget shortWorld _ rfl (Prod.ext ?_ rfl)
  cases hreply : (exec shortCopy shortWorld).1 with
  | error stop =>
    rw [hreply] at hexec
    cases hexec
  | ok reply =>
    rw [hreply] at hexec
    exact hreply.trans (congrArg Except.ok (Option.some.inj hexec))

end Resonantia.Io.AudioExcerpt
