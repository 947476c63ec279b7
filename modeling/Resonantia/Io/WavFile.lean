import Resonantia.Library.FloatArithmetic
import Resonantia.Pipeline.Checked

/-!
# Two WAV parsers

`read_wav` loads a whole file; `WavChunkReader` opens a file and decodes any range of its frames
through a buffer of fixed size. Each walks the chunks of the file, validates the format and decodes
the samples with code of its own. The file is regular and does not change.

## Main definitions

* `Io.Wav.ReadWav.readWav`: `read_wav`.
* `Io.Wav.WavChunkReader.openFile`, `Io.Wav.WavChunkReader.readMonoFrames`: `WavChunkReader`.
-/

namespace Resonantia.Io.Wav

open ByteString BinaryFloat FloatWord
open Pipeline (checkedAdd checkedMul checkedAdd_of_lt eq_add_of_checkedAdd)

/-- A sample; nothing stands for an infinity or NaN. -/
abbrev Sample := Number binary32

/-! ### Numbers in files -/

/-- `read_u16_le`. -/
def readU16 (data : Bytes) (position : ℕ) : ℕ := ofLittleEndian ((data.drop position).take 2)

/-- `read_u32_le`. -/
def readU32 (data : Bytes) (position : ℕ) : ℕ := ofLittleEndian ((data.drop position).take 4)

def kPcm : ℕ := 1

def kIeeeFloat : ℕ := 3

def kMaxChannels : ℕ := 256

def kDecodeBufferBytes : ℕ := 64 * 1024

/-- The largest `int`. -/
def maxInt : ℕ := 2 ^ 31 - 1

/-- The largest `off_t` and `std::streamoff`. -/
def maxOffset : ℕ := 2 ^ 63 - 1

/-- `max_size` of a vector of `float`. -/
def maxFloats : ℕ := 2 ^ 61 - 1

/-- `max_size` of a vector of bytes. -/
def maxBytes : ℕ := 2 ^ 63 - 1

/-- The signed value of 16 bits. -/
def pcmValue (bits : ℕ) : ℤ := if 0x8000 ≤ bits then (bits : ℤ) - 0x10000 else bits

/-- A PCM sample as a `double`. -/
def pcmSample (bits : ℕ) : Number binary64 := Number.ofRat (pcmValue bits / 32768)

/-- A sum that `checked_add` gives and that does not exceed a limit. -/
def checkedEnd (limit a b : ℕ) : Option ℕ := do
  let sum ← checkedAdd a b
  if limit < sum then none else some sum

theorem eq_of_checkedEnd {limit a b c : ℕ} (h : checkedEnd limit a b = some c) :
    c = a + b ∧ a + b ≤ limit := by
  obtain ⟨sum, hsum, h⟩ := Option.bind_eq_some_iff.1 h
  obtain rfl := eq_add_of_checkedAdd hsum
  split_ifs at h with hlimit
  exact ⟨(Option.some.inj h).symm, Nat.not_lt.1 hlimit⟩

theorem checkedEnd_of_le {limit a b : ℕ} (h : a + b ≤ limit) (hlimit : limit < 2 ^ 64) :
    checkedEnd limit a b = some (a + b) := by
  rw [checkedEnd, checkedAdd_of_lt (by omega), Option.bind_eq_bind, Option.bind_some,
    if_neg (by omega)]

/-- The name, the size and the place of a chunk, with the place of the next one. -/
structure Chunk where
  name : Bytes
  size : ℕ
  data : ℕ
  next : ℕ

/-! ### `read_wav` -/

namespace ReadWav

/-- `seek_to` and `read_exact`. -/
def readAt (content : Bytes) (offset size : ℕ) : Option Bytes :=
  if maxOffset < offset then none
  else if size = 0 then some []
  else if offset + size ≤ content.length then some ((content.drop offset).take size)
  else none

structure WavFormat where
  audioFormat : ℕ := 0
  channels : ℕ := 0
  sampleRate : ℕ := 0
  byteRate : ℕ := 0
  blockAlign : ℕ := 0
  bitsPerSample : ℕ := 0

/-- `validate_format`. -/
def validateFormat (format : WavFormat) : Bool :=
  if (format.audioFormat ≠ kPcm ∧ format.audioFormat ≠ kIeeeFloat) ∨ format.channels = 0 ∨
      kMaxChannels < format.channels ∨ format.sampleRate = 0 ∨ maxInt < format.sampleRate then false
  else if (format.audioFormat = kPcm ∧ format.bitsPerSample ≠ 16) ∨
      (format.audioFormat = kIeeeFloat ∧ format.bitsPerSample ≠ 32) then false
  else
    match checkedMul format.channels (format.bitsPerSample / 8) with
    | none => false
    | some expectedAlign =>
      expectedAlign ≤ 2 ^ 16 - 1 && format.blockAlign = expectedAlign &&
        match checkedMul format.sampleRate expectedAlign with
        | none => false
        | some expectedRate => expectedRate ≤ 2 ^ 32 - 1 && format.byteRate = expectedRate

/-- The fields of a `fmt ` chunk. -/
def readFormat (body : Bytes) : WavFormat where
  audioFormat := readU16 body 0
  channels := readU16 body 2
  sampleRate := readU32 body 4
  byteRate := readU32 body 8
  blockAlign := readU16 body 12
  bitsPerSample := readU16 body 14

/-- The variables of the loop over the chunks. -/
structure Walk where
  hasFmt : Bool := false
  hasData : Bool := false
  format : WavFormat := {}
  dataOffset : ℕ := 0
  dataSize : ℕ := 0
  cursor : ℕ := 12

/-- The header of the chunk at the cursor, within its bounds. -/
def chunkAt (content : Bytes) (riffEnd cursor : ℕ) : Option Chunk := do
  let chunkHeaderEnd ← checkedEnd riffEnd cursor 8
  let chunkHeader ← readAt content cursor 8
  let chunkSize := readU32 chunkHeader 4
  let chunkEnd ← checkedEnd riffEnd chunkHeaderEnd chunkSize
  let paddedEnd ← (if chunkSize % 2 ≠ 0 then checkedEnd riffEnd chunkEnd 1 else some chunkEnd)
  pure ⟨chunkHeader.take 4, chunkSize, chunkHeaderEnd, paddedEnd⟩

/-- What a chunk adds. -/
def accept (content : Bytes) (w : Walk) (chunk : Chunk) : Option Walk :=
  if chunk.name = bytes "fmt " then
    if w.hasFmt = true ∨ chunk.size < 16 then none
    else do
      let body ← readAt content chunk.data 16
      let format := readFormat body
      if validateFormat format = false then none
      else some { w with format, hasFmt := true, cursor := chunk.next }
  else if chunk.name = bytes "data" then
    if w.hasData = true then none
    else some { w with
      dataOffset := chunk.data
      dataSize := chunk.size
      hasData := true
      cursor := chunk.next }
  else some { w with cursor := chunk.next }

theorem cursor_lt_of_chunkAt {content : Bytes} {riffEnd cursor : ℕ} {chunk : Chunk}
    (h : chunkAt content riffEnd cursor = some chunk) :
    chunk.data = cursor + 8 ∧ chunk.data + chunk.size ≤ chunk.next ∧ chunk.next ≤ riffEnd := by
  rw [chunkAt] at h
  obtain ⟨headerEnd, hheader, h⟩ := Option.bind_eq_some_iff.1 h
  obtain ⟨header, -, h⟩ := Option.bind_eq_some_iff.1 h
  obtain ⟨chunkEnd, hend, h⟩ := Option.bind_eq_some_iff.1 h
  obtain ⟨paddedEnd, hpadded, h⟩ := Option.bind_eq_some_iff.1 h
  obtain ⟨hdata, -⟩ := eq_of_checkedEnd hheader
  obtain ⟨hsize, hle⟩ := eq_of_checkedEnd hend
  rw [← Option.some.inj h]
  refine ⟨hdata, ?_⟩
  dsimp only
  split_ifs at hpadded
  · have := eq_of_checkedEnd hpadded
    omega
  · have := Option.some.inj hpadded
    omega

theorem cursor_of_accept {content : Bytes} {w w' : Walk} {chunk : Chunk}
    (h : accept content w chunk = some w') : w'.cursor = chunk.next := by
  rw [accept] at h
  split_ifs at h
  · obtain ⟨body, -, h⟩ := Option.bind_eq_some_iff.1 h
    dsimp only at h
    split_ifs at h
    rw [← Option.some.inj h]
  · rw [← Option.some.inj h]
  · rw [← Option.some.inj h]

/-- One chunk of the loop. -/
def step (content : Bytes) (riffEnd : ℕ) (w : Walk) : Option Walk := do
  let chunk ← chunkAt content riffEnd w.cursor
  accept content w chunk

theorem cursor_lt_of_step {content : Bytes} {riffEnd : ℕ} {w w' : Walk}
    (h : step content riffEnd w = some w') : w.cursor < w'.cursor := by
  obtain ⟨chunk, hchunk, haccept⟩ := Option.bind_eq_some_iff.1 h
  have hnext := cursor_lt_of_chunkAt hchunk
  rw [cursor_of_accept haccept]
  omega

/-- The loop over the chunks. -/
def walk (content : Bytes) (riffEnd : ℕ) (w : Walk) : Option Walk :=
  if _hcursor : w.cursor < riffEnd then
    match hstep : step content riffEnd w with
    | none => none
    | some w' =>
      have := cursor_lt_of_step hstep
      walk content riffEnd w'
  else some w
termination_by riffEnd - w.cursor

theorem walk_eq_bind (content : Bytes) (riffEnd : ℕ) (w : Walk) :
    walk content riffEnd w =
      if w.cursor < riffEnd then (step content riffEnd w).bind (walk content riffEnd)
      else some w := by
  rw [walk]
  split_ifs
  · split
    · next hstep => rw [hstep, Option.bind_none]
    · next w' hstep => exact (congrArg (Option.bind · (walk content riffEnd)) hstep).symm
  · rfl

inductive SampleFormat
  | int16
  | float32
deriving DecidableEq

/-- What `read_wav` returns. -/
structure Decoded where
  samples : List Sample
  sampleRate : ℕ
  sourceFormat : SampleFormat

/-- One encoded value; a value that is not finite ends the reading. -/
def decode (format : WavFormat) (encoded : Bytes) (position : ℕ) : Option (Number binary64) :=
  if format.audioFormat = kPcm then some (pcmSample (readU16 encoded position))
  else
    let sample := toSingle (readU32 encoded position).toUInt32
    if sample.isNone = true then none else some sample.convert

/-- The samples of one frame: the mean of its channels, or its two channels. -/
def decodeFrame (format : WavFormat) (encoded : Bytes) (stereo : Bool) (frame : ℕ) :
    Option (List Sample) := do
  let bytesPerSample := format.bitsPerSample / 8
  let frameOffset := frame * format.blockAlign
  let (mono, row) ← (List.range format.channels).foldlM
    (fun (mono, row) channel => do
      let decoded ← decode format encoded (frameOffset + channel * bytesPerSample)
      pure (mono.add decoded, if stereo = true then row ++ [decoded.convert] else row))
    (Number.zero false, ([] : List Sample))
  pure (if stereo = false then [(mono.divNat format.channels).convert]
    else if format.channels = 1 then row ++ row else row)

/-- `read_wav` on the bytes of a file. -/
def readWav (content : Bytes) (stereo : Bool) : Option Decoded := do
  let fileSize := content.length
  if fileSize < 12 ∨ (stereo = true ∧ 256 * 2 ^ 20 < fileSize) then none
  else
    let riff ← readAt content 0 12
    if riff.take 4 ≠ bytes "RIFF" ∨ (riff.drop 8).take 4 ≠ bytes "WAVE" then none
    else
      let riffSize := readU32 riff 4
      if riffSize < 4 then none
      else
        let riffEnd ← checkedEnd fileSize 8 riffSize
        let w ← walk content riffEnd {}
        let format := w.format
        if w.cursor ≠ riffEnd ∨ w.hasFmt = false ∨ w.hasData = false ∨
            w.dataSize % format.blockAlign ≠ 0 then none
        else
          let frameCount := w.dataSize / format.blockAlign
          let cleanupFloat : Bool := format.audioFormat = kIeeeFloat ∧ format.channels = 2 ∧
            format.sampleRate = 44100 ∧ format.bitsPerSample = 32
          if stereo = true ∧ cleanupFloat = false ∧ 128 * 2 ^ 20 < fileSize then none
          else if stereo = true ∧
              (2 < format.channels ∨ format.sampleRate * 600 < frameCount) then none
          else if maxFloats < frameCount ∨ maxBytes < w.dataSize then none
          else
            let encoded ← readAt content w.dataOffset w.dataSize
            let frames ← (List.range frameCount).mapM (decodeFrame format encoded stereo)
            some {
              samples := frames.flatten
              sampleRate := format.sampleRate
              sourceFormat := if format.audioFormat = kPcm then .int16 else .float32 }

end ReadWav

/-! ### `WavChunkReader` -/

namespace WavChunkReader

/-- `pread_exact`. -/
def preadExact (content : Bytes) (size offset : ℕ) : Option Bytes := do
  if size = 0 then some []
  else
    let rangeEnd ← checkedAdd offset size
    if maxOffset < offset ∨ maxOffset < rangeEnd then none
    else if rangeEnd ≤ content.length then some ((content.drop offset).take size)
    else none

inductive WavEncoding
  | pcm16
  | float32
deriving DecidableEq

structure WavMetadata where
  sampleRate : ℕ
  channels : ℕ
  bitsPerSample : ℕ
  encoding : WavEncoding
  frameCount : ℕ

/-- `WavChunkReader::State` of an open file. -/
structure State where
  metadata : WavMetadata
  dataOffset : ℕ
  dataBytes : ℕ
  blockAlign : ℕ
  audioFormat : ℕ

/-- The variables of the loop over the chunks. -/
structure Walk where
  hasFmt : Bool := false
  hasData : Bool := false
  channels : ℕ := 0
  sampleRate : ℕ := 0
  byteRate : ℕ := 0
  bitsPerSample : ℕ := 0
  blockAlign : ℕ := 0
  audioFormat : ℕ := 0
  dataOffset : ℕ := 0
  dataBytes : ℕ := 0
  cursor : ℕ := 12

/-- The header of the chunk at the cursor, within its bounds. -/
def chunkAt (content : Bytes) (riffEnd cursor : ℕ) : Option Chunk := do
  let chunkData ← checkedEnd riffEnd cursor 8
  let chunkHeader ← preadExact content 8 cursor
  let chunkSize := readU32 chunkHeader 4
  let chunkEnd ← checkedEnd riffEnd chunkData chunkSize
  let paddedEnd ← (if chunkSize % 2 ≠ 0 then checkedEnd riffEnd chunkEnd 1 else some chunkEnd)
  pure ⟨chunkHeader.take 4, chunkSize, chunkData, paddedEnd⟩

/-- A `fmt ` chunk: its fields are stored and checked. -/
def acceptFormat (w : Walk) (format : Bytes) : Option Walk := do
  let w := { w with
    audioFormat := readU16 format 0
    channels := readU16 format 2
    sampleRate := readU32 format 4
    byteRate := readU32 format 8
    blockAlign := readU16 format 12
    bitsPerSample := readU16 format 14 }
  if (w.audioFormat ≠ kPcm ∧ w.audioFormat ≠ kIeeeFloat) ∨ w.channels = 0 ∨
      kMaxChannels < w.channels ∨ w.sampleRate = 0 ∨ maxInt < w.sampleRate ∨
      (w.audioFormat = kPcm ∧ w.bitsPerSample ≠ 16) ∨
      (w.audioFormat = kIeeeFloat ∧ w.bitsPerSample ≠ 32) then none
  else
    let bytesPerSample := w.bitsPerSample / 8
    let expectedAlign ← checkedMul w.channels bytesPerSample
    if 2 ^ 16 - 1 < expectedAlign ∨ w.blockAlign ≠ expectedAlign then none
    else
      let expectedRate ← checkedMul w.sampleRate expectedAlign
      if 2 ^ 32 - 1 < expectedRate ∨ w.byteRate ≠ expectedRate then none
      else some { w with hasFmt := true }

/-- What a chunk adds. -/
def accept (content : Bytes) (w : Walk) (chunk : Chunk) : Option Walk := do
  if chunk.name = bytes "fmt " then
    if w.hasFmt = true ∨ chunk.size < 16 then none
    else
      let format ← preadExact content 16 chunk.data
      let w ← acceptFormat w format
      some { w with cursor := chunk.next }
  else if chunk.name = bytes "data" then
    if w.hasData = true then none
    else some { w with
      dataOffset := chunk.data
      dataBytes := chunk.size
      hasData := true
      cursor := chunk.next }
  else some { w with cursor := chunk.next }

/-- One chunk of the loop. -/
def step (content : Bytes) (riffEnd : ℕ) (w : Walk) : Option Walk := do
  let chunk ← chunkAt content riffEnd w.cursor
  accept content w chunk

theorem cursor_lt_of_chunkAt {content : Bytes} {riffEnd cursor : ℕ} {chunk : Chunk}
    (h : chunkAt content riffEnd cursor = some chunk) : cursor < chunk.next := by
  rw [chunkAt] at h
  obtain ⟨chunkData, hdata, h⟩ := Option.bind_eq_some_iff.1 h
  obtain ⟨header, -, h⟩ := Option.bind_eq_some_iff.1 h
  obtain ⟨chunkEnd, hend, h⟩ := Option.bind_eq_some_iff.1 h
  obtain ⟨paddedEnd, hpadded, h⟩ := Option.bind_eq_some_iff.1 h
  obtain ⟨hdata, -⟩ := eq_of_checkedEnd hdata
  obtain ⟨hsize, -⟩ := eq_of_checkedEnd hend
  rw [← Option.some.inj h]
  dsimp only
  split_ifs at hpadded
  · have := eq_of_checkedEnd hpadded
    omega
  · have := Option.some.inj hpadded
    omega

theorem cursor_of_accept {content : Bytes} {w w' : Walk} {chunk : Chunk}
    (h : accept content w chunk = some w') : w'.cursor = chunk.next := by
  rw [accept] at h
  split_ifs at h
  · obtain ⟨format, -, h⟩ := Option.bind_eq_some_iff.1 h
    obtain ⟨w₁, -, h⟩ := Option.bind_eq_some_iff.1 h
    rw [← Option.some.inj h]
  · rw [← Option.some.inj h]
  · rw [← Option.some.inj h]

theorem cursor_lt_of_step {content : Bytes} {riffEnd : ℕ} {w w' : Walk}
    (h : step content riffEnd w = some w') : w.cursor < w'.cursor := by
  obtain ⟨chunk, hchunk, haccept⟩ := Option.bind_eq_some_iff.1 h
  rw [cursor_of_accept haccept]
  exact cursor_lt_of_chunkAt hchunk

/-- The loop over the chunks. -/
def walk (content : Bytes) (riffEnd : ℕ) (w : Walk) : Option Walk :=
  if _hcursor : w.cursor < riffEnd then
    match hstep : step content riffEnd w with
    | none => none
    | some w' =>
      have := cursor_lt_of_step hstep
      walk content riffEnd w'
  else some w
termination_by riffEnd - w.cursor

theorem walk_eq_bind (content : Bytes) (riffEnd : ℕ) (w : Walk) :
    walk content riffEnd w =
      if w.cursor < riffEnd then (step content riffEnd w).bind (walk content riffEnd)
      else some w := by
  rw [walk]
  split_ifs
  · split
    · next hstep => rw [hstep, Option.bind_none]
    · next w' hstep => exact (congrArg (Option.bind · (walk content riffEnd)) hstep).symm
  · rfl

/-- `WavChunkReader::open` on the bytes of a file. -/
def openFile (content : Bytes) : Option State := do
  let fileSize := content.length
  if fileSize < 12 then none
  else
    let riff ← preadExact content 12 0
    if riff.take 4 ≠ bytes "RIFF" ∨ (riff.drop 8).take 4 ≠ bytes "WAVE" then none
    else
      let riffSize := readU32 riff 4
      if riffSize < 4 then none
      else
        let riffEnd ← checkedEnd fileSize 8 riffSize
        let w ← walk content riffEnd {}
        if w.cursor ≠ riffEnd ∨ w.hasFmt = false ∨ w.hasData = false ∨ w.blockAlign = 0 ∨
            w.dataBytes % w.blockAlign ≠ 0 then none
        else some {
          metadata := {
            sampleRate := w.sampleRate
            channels := w.channels
            bitsPerSample := w.bitsPerSample
            encoding := if w.audioFormat = kPcm then .pcm16 else .float32
            frameCount := w.dataBytes / w.blockAlign }
          dataOffset := w.dataOffset
          dataBytes := w.dataBytes
          blockAlign := w.blockAlign
          audioFormat := w.audioFormat }

/-- The mean of the channels of one frame in the buffer. -/
def decodeFrame (state : State) (encoded : Bytes) (frame : ℕ) : Option Sample := do
  let bytesPerSample := state.metadata.bitsPerSample / 8
  let frameOffset := frame * state.blockAlign
  let mono ← (List.range state.metadata.channels).foldlM
    (fun (mono : Number binary64) channel =>
      let value := frameOffset + channel * bytesPerSample
      if state.audioFormat = kPcm then some (mono.add (pcmSample (readU16 encoded value)))
      else
        let sample := toSingle (readU32 encoded value).toUInt32
        if sample.isNone = true then none else some (mono.add sample.convert))
    (Number.zero false)
  let mixed : Sample := (mono.divNat state.metadata.channels).convert
  if mixed.isNone = true then none else pure mixed

/-- The frames that fit in the buffer. -/
def framesPerRead (state : State) : ℕ := max 1 (kDecodeBufferBytes / state.blockAlign)

/-- The loop of `read_mono_frames` from a number of completed frames on. -/
def readFrames (content : Bytes) (state : State) (firstFrame frameCount completed : ℕ) :
    Option (List Sample) :=
  if _hmore : completed < frameCount then do
    let frames := min (frameCount - completed) (framesPerRead state)
    let nativeFrame ← checkedAdd firstFrame completed
    let byteOffset ← checkedMul nativeFrame state.blockAlign
    let byteOffset ← checkedAdd state.dataOffset byteOffset
    let byteCount ← checkedMul frames state.blockAlign
    if kDecodeBufferBytes < byteCount then none
    else
      let encoded ← preadExact content byteCount byteOffset
      let output ← (List.range frames).mapM (decodeFrame state encoded)
      let rest ← readFrames content state firstFrame frameCount (completed + frames)
      pure (output ++ rest)
  else some []
termination_by frameCount - completed
decreasing_by
  have hframes : 0 < min (frameCount - completed) (framesPerRead state) := by
    rw [framesPerRead]
    omega
  omega

/-- `WavChunkReader::read_mono_frames`. -/
def readMonoFrames (content : Bytes) (state : State) (firstFrame frameCount : ℕ) :
    Option (List Sample) := do
  let endFrame ← checkedAdd firstFrame frameCount
  if state.metadata.frameCount < endFrame ∨ maxFloats < frameCount then none
  else if frameCount = 0 then some []
  else readFrames content state firstFrame frameCount 0

end WavChunkReader

end Resonantia.Io.Wav
