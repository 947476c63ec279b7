import Resonantia.Io.WavAgreement

/-!
# The check of decoded audio

Before decoded or separated audio goes on to the next stage, the workflow walks over its chunks with
a check of its own, `decoded_wav_frames`: one 16-bit format at 44.1 kHz in a file without slack. The
next stage opens the same file with `WavChunkReader`. A file that the check accepts is opened there,
with the same channels and as many frames as the check counted.

## Main definitions

* `Web.DecodedWav.decodedWavFrames`: `decoded_wav_frames`.
* `Web.DecodedWav.Follows`: the variables of the check beside those of the parser.

## Main results

* `Web.DecodedWav.Follows.step`: one chunk of the check is one chunk of the parser.
* `Web.DecodedWav.openFile_of_decodedWavFrames`: what the check accepts is opened.
-/

namespace Resonantia.Web.DecodedWav

open ByteString Io.Wav

/-! ### The check -/

/-- The number of channels that the check asks for. -/
def channelCount (stereo : Bool) : ℕ := if stereo then 2 else 1

/-- The number of bytes of a frame. -/
def frameBytes (stereo : Bool) : ℕ := if stereo then 4 else 2

/-- The value of one byte of a header. -/
def byteAt (header : Bytes) (i : ℕ) : ℕ := (header.getD i 0).toNat

/-- The fields of a `fmt ` chunk: 16-bit PCM at 44.1 kHz. -/
def isDecodedFormat (header : Bytes) (stereo : Bool) : Bool :=
  let channels := channelCount stereo
  byteAt header 0 == 1 && byteAt header 1 == 0 && byteAt header 2 == channels &&
    byteAt header 3 == 0 && readU32 header 4 == 44100 && readU32 header 8 == 88200 * channels &&
    byteAt header 12 == 2 * channels && byteAt header 13 == 0 && byteAt header 14 == 16 &&
    byteAt header 15 == 0

/-- The variables of the loop over the chunks. -/
structure Scan where
  format : Bool := false
  data : Bool := false
  frames : ℕ := 0
  offset : ℕ := 12

/-- What a chunk of `count` bytes behind its header adds. -/
def acceptChunk (content : Bytes) (stereo : Bool) (scan : Scan) (name : Bytes) (count : ℕ) :
    Option Scan :=
  if name = bytes "fmt " then
    if scan.format = true ∨ count < 16 then none
    else do
      let header ← ReadWav.readAt content (scan.offset + 8) 16
      let format := isDecodedFormat header stereo
      if format = false then none else some { scan with format }
  else if name = bytes "data" then
    if scan.data = true ∨ count = 0 ∨ count % frameBytes stereo ≠ 0 then none
    else some { scan with data := true, frames := count / frameBytes stereo }
  else some scan

/-- One chunk of the loop. -/
def scanChunk (content : Bytes) (size : ℕ) (stereo : Bool) (scan : Scan) : Option Scan := do
  let header ← ReadWav.readAt content scan.offset 8
  let count := readU32 header 4
  let padded := count + count % 2
  if padded > size - scan.offset - 8 then none
  else do
    let scan ← acceptChunk content stereo scan (header.take 4) count
    some { scan with offset := scan.offset + (8 + padded) }

theorem offset_of_acceptChunk {content : Bytes} {stereo : Bool} {scan scan' : Scan} {name : Bytes}
    {count : ℕ} (h : acceptChunk content stereo scan name count = some scan') :
    scan'.offset = scan.offset := by
  rw [acceptChunk] at h
  split_ifs at h
  · obtain ⟨header, -, h⟩ := Option.bind_eq_some_iff.1 h
    dsimp only at h
    split_ifs at h
    rw [← Option.some.inj h]
  · rw [← Option.some.inj h]
  · rw [← Option.some.inj h]

theorem offset_lt_of_scanChunk {content : Bytes} {size : ℕ} {stereo : Bool} {scan scan' : Scan}
    (h : scanChunk content size stereo scan = some scan') : scan.offset < scan'.offset := by
  obtain ⟨header, -, h⟩ := Option.bind_eq_some_iff.1 h
  dsimp only at h
  split_ifs at h
  obtain ⟨accepted, haccept, h⟩ := Option.bind_eq_some_iff.1 h
  rw [← Option.some.inj h]
  dsimp only
  rw [offset_of_acceptChunk haccept]
  omega

/-- The loop over the chunks. -/
def scanChunks (content : Bytes) (size : ℕ) (stereo : Bool) (scan : Scan) : Option Scan :=
  if _hoffset : scan.offset + 8 ≤ size then
    match hchunk : scanChunk content size stereo scan with
    | none => none
    | some scan' =>
      have := offset_lt_of_scanChunk hchunk
      scanChunks content size stereo scan'
  else some scan
termination_by size - scan.offset

/-- `decoded_wav_frames` on the bytes of a file and the size that was measured for it. -/
def decodedWavFrames (content : Bytes) (size : ℕ) (stereo : Bool) : Option ℕ :=
  if size < 44 then none
  else do
    let header ← ReadWav.readAt content 0 12
    if header.take 4 ≠ bytes "RIFF" ∨ (header.drop 8).take 4 ≠ bytes "WAVE" ∨
        readU32 header 4 ≠ size - 8 then none
    else do
      let scan ← scanChunks content size stereo {}
      if scan.format = false ∨ scan.data = false ∨ scan.offset ≠ size then none
      else some scan.frames

/-! ### The format -/

/-- Two bytes of a header as a number. -/
theorem readU16_eq (header : Bytes) {i : ℕ} (h : i + 2 ≤ header.length) :
    readU16 header i = byteAt header i + 256 * byteAt header (i + 1) := by
  have hfirst : header.drop i = header[i] :: header.drop (i + 1) := List.drop_eq_getElem_cons _
  have hsecond : header.drop (i + 1) = header[i + 1] :: header.drop (i + 2) :=
    List.drop_eq_getElem_cons _
  have hzero : byteAt header i = header[i].toNat := by
    rw [byteAt, List.getD_eq_getElem?_getD, List.getElem?_eq_getElem, Option.getD_some]
  have hone : byteAt header (i + 1) = header[i + 1].toNat := by
    rw [byteAt, List.getD_eq_getElem?_getD, List.getElem?_eq_getElem, Option.getD_some]
  rw [readU16, hfirst, hsecond, hzero, hone]
  rfl

/-- A format that the check accepts is one that both parsers accept. -/
theorem validFormat_of_isDecodedFormat {header : Bytes} {stereo : Bool}
    (hlength : header.length = 16) (h : isDecodedFormat header stereo = true) :
    ValidFormat (ReadWav.readFormat header) ∧
      (ReadWav.readFormat header).sampleRate = 44100 ∧
      (ReadWav.readFormat header).channels = channelCount stereo ∧
      (ReadWav.readFormat header).blockAlign = frameBytes stereo := by
  simp only [isDecodedFormat, Bool.and_eq_true, beq_iff_eq] at h
  obtain ⟨⟨⟨⟨⟨⟨⟨⟨⟨h0, h1⟩, h2⟩, h3⟩, hrate⟩, hbytes⟩, h12⟩, h13⟩, h14⟩, h15⟩ := h
  have haudio : readU16 header 0 = 1 := by rw [readU16_eq _ (by omega), h0, h1]
  have hchannels : readU16 header 2 = channelCount stereo := by
    rw [readU16_eq _ (by omega), h2, h3, Nat.mul_zero, Nat.add_zero]
  have halign : readU16 header 12 = 2 * channelCount stereo := by
    rw [readU16_eq _ (by omega), h12, h13, Nat.mul_zero, Nat.add_zero]
  have hbits : readU16 header 14 = 16 := by rw [readU16_eq _ (by omega), h14, h15]
  have hframe : 2 * channelCount stereo = frameBytes stereo := by cases stereo <;> rfl
  have hcount : 1 ≤ channelCount stereo ∧ channelCount stereo ≤ 2 := by cases stereo <;> decide
  refine ⟨?_, hrate, hchannels, halign.trans hframe⟩
  constructor <;> simp only [ReadWav.readFormat, haudio, hchannels, halign, hbits, hrate, hbytes]
  · exact Or.inl ⟨rfl, trivial⟩
  · exact hcount.1
  · exact hcount.2.trans (by decide)
  · decide
  · decide
  · omega
  · omega
  · omega

/-! ### The walk -/

/-- The variables of the check beside those of the parser. -/
structure Follows (stereo : Bool) (scan : Scan) (w : ReadWav.Walk) : Prop where
  cursor : w.cursor = scan.offset
  hasFmt : w.hasFmt = scan.format
  hasData : w.hasData = scan.data
  format : scan.format = true → w.format.sampleRate = 44100 ∧
    w.format.channels = channelCount stereo ∧ w.format.blockAlign = frameBytes stereo
  data : scan.data = true →
    w.dataSize % frameBytes stereo = 0 ∧ scan.frames = w.dataSize / frameBytes stereo

section Walk

variable {content : Bytes} {stereo : Bool}

theorem length_of_readAt {content header : Bytes} {offset size : ℕ}
    (h : ReadWav.readAt content offset size = some header) : header.length = size := by
  rw [ReadWav.readAt] at h
  split_ifs at h with hoffset hzero hend
  · rw [← Option.some.inj h, hzero, List.length_nil]
  · rw [← Option.some.inj h, List.length_take, List.length_drop]
    omega

/-- What the check accepts of a chunk, the parser accepts. -/
theorem Follows.accept {scan scan' : Scan} {w : ReadWav.Walk} (h : Follows stereo scan w)
    {chunk : Chunk} (hdata : chunk.data = scan.offset + 8)
    (haccept : acceptChunk content stereo scan chunk.name chunk.size = some scan') :
    ∃ w', ReadWav.accept content w chunk = some w' ∧
      Follows stereo { scan' with offset := chunk.next } w' := by
  obtain ⟨-, hasFmt, hasData, hformat, hframes⟩ := h
  rw [acceptChunk] at haccept
  rw [ReadWav.accept, hasFmt, hasData, hdata]
  by_cases hfmt : chunk.name = bytes "fmt "
  · rw [if_pos hfmt] at haccept ⊢
    split_ifs at haccept ⊢ with hcheck
    obtain ⟨header, hheader, haccept⟩ := Option.bind_eq_some_iff.1 haccept
    dsimp only at haccept
    split_ifs at haccept with hwrong
    have hvalid := validFormat_of_isDecodedFormat (length_of_readAt hheader)
      (Bool.eq_true_of_not_eq_false hwrong)
    rw [hheader, Option.bind_eq_bind, Option.bind_some]
    dsimp only
    rw [if_neg (by rw [validateFormat_iff.2 hvalid.1]; decide)]
    obtain rfl := Option.some.inj haccept
    exact ⟨_, rfl, rfl, (Bool.eq_true_of_not_eq_false hwrong).symm, rfl, fun _ => hvalid.2,
      hframes⟩
  · rw [if_neg hfmt] at haccept ⊢
    by_cases hname : chunk.name = bytes "data"
    · rw [if_pos hname] at haccept ⊢
      split_ifs at haccept with hcheck
      obtain rfl := Option.some.inj haccept
      simp only [not_or, not_not] at hcheck
      rw [if_neg hcheck.1]
      exact ⟨_, rfl, rfl, rfl, rfl, hformat, fun _ => ⟨hcheck.2.2, rfl⟩⟩
    · rw [if_neg hname] at haccept ⊢
      obtain rfl := Option.some.inj haccept
      exact ⟨_, rfl, rfl, rfl, rfl, hformat, hframes⟩

/-- One chunk of the check is one chunk of the parser. -/
theorem Follows.step {size : ℕ} {scan scan' : Scan} {w : ReadWav.Walk} (h : Follows stereo scan w)
    (hsize : size < 2 ^ 33) (hoffset : scan.offset + 8 ≤ size)
    (hchunk : scanChunk content size stereo scan = some scan') :
    ∃ w', ReadWav.step content size w = some w' ∧ Follows stereo scan' w' := by
  obtain ⟨header, hheader, hchunk⟩ := Option.bind_eq_some_iff.1 hchunk
  dsimp only at hchunk
  split_ifs at hchunk with hpadded
  obtain ⟨accepted, haccept, hchunk⟩ := Option.bind_eq_some_iff.1 hchunk
  have hnext : ReadWav.chunkAt content size w.cursor =
      some ⟨header.take 4, readU32 header 4, scan.offset + 8,
        scan.offset + (8 + (readU32 header 4 + readU32 header 4 % 2))⟩ := by
    rw [ReadWav.chunkAt, h.cursor, checkedEnd_of_le (by omega) (by omega), hheader]
    simp only [Option.bind_eq_bind, Option.bind_some]
    rw [checkedEnd_of_le (by omega) (by omega)]
    split_ifs with hodd
    · rw [Option.bind_some, checkedEnd_of_le (by omega) (by omega)]
      simp only [Option.bind_some]
      congr 2
      omega
    · simp only [Option.bind_some]
      congr 2
      omega
  obtain ⟨w', haccept', hfollows⟩ := h.accept
    (show Chunk.data ⟨header.take 4, readU32 header 4, scan.offset + 8,
      scan.offset + (8 + (readU32 header 4 + readU32 header 4 % 2))⟩ = _ from rfl) haccept
  refine ⟨w', ?_, ?_⟩
  · rw [ReadWav.step, hnext]
    exact haccept'
  · rw [← Option.some.inj hchunk, offset_of_acceptChunk haccept]
    exact hfollows

/-- The loop of the check ends with a loop of the parser, when the file holds no slack. -/
theorem Follows.walk {size : ℕ} {scan scan' : Scan} {w : ReadWav.Walk} (h : Follows stereo scan w)
    (hsize : size < 2 ^ 33) (hscan : scanChunks content size stereo scan = some scan')
    (hend : scan'.offset = size) :
    ∃ w', ReadWav.walk content size w = some w' ∧ Follows stereo scan' w' := by
  induction hd : size - scan.offset using Nat.strongRecOn generalizing scan w with
  | ind d ih =>
    rw [scanChunks] at hscan
    rw [ReadWav.walk_eq_bind, h.cursor]
    split at hscan
    · rename_i hoffset
      split at hscan
      · cases hscan
      · rename_i next hnext
        obtain ⟨w', hstep, hfollows⟩ := h.step hsize hoffset hnext
        have hlt := offset_lt_of_scanChunk hnext
        rw [if_pos (by omega), hstep, Option.bind_some]
        exact ih (size - next.offset) (by omega) hfollows hscan rfl
    · obtain rfl := Option.some.inj hscan
      rw [if_neg (by omega)]
      exact ⟨w, rfl, h⟩

end Walk

/-! ### Opening -/

/-- **What the check accepts is opened.** If `decoded_wav_frames` accepts the bytes of a file, in
mono or in stereo, and counts some frames, then `WavChunkReader` opens the file at 44.1 kHz, with
the channels that were asked for and with just these frames. -/
theorem openFile_of_decodedWavFrames {content : Bytes} {stereo : Bool} {frames : ℕ}
    (h : decodedWavFrames content content.length stereo = some frames) :
    ∃ state, WavChunkReader.openFile content = some state ∧
      state.metadata.sampleRate = 44100 ∧ state.metadata.channels = channelCount stereo ∧
      state.metadata.frameCount = frames := by
  rw [decodedWavFrames] at h
  split_ifs at h with hsize
  obtain ⟨header, hheader, h⟩ := Option.bind_eq_some_iff.1 h
  split_ifs at h with hriff
  obtain ⟨scan, hscan, h⟩ := Option.bind_eq_some_iff.1 h
  split_ifs at h with hbad
  simp only [not_or, not_not, Bool.not_eq_false] at hriff hbad
  obtain ⟨hmagic, hwave, hlength⟩ := hriff
  obtain ⟨hformat, hdata, hend⟩ := hbad
  have hlt := readU32_lt header 4
  have hstart : Follows stereo {} {} :=
    ⟨rfl, rfl, rfl, (fun h => nomatch h), (fun h => nomatch h)⟩
  obtain ⟨w, hwalk, hfollows⟩ := hstart.walk (show content.length < 2 ^ 33 by omega) hscan hend
  obtain ⟨hrate, hchannels, halign⟩ := hfollows.format hformat
  obtain ⟨hmod, hframes⟩ := hfollows.data hdata
  have hparse : parse content = some w := by
    have hriffEnd : checkedEnd content.length 8 (readU32 header 4) = some content.length := by
      rw [checkedEnd_of_le (by omega) (by omega)]
      congr 1
      omega
    rw [parse, if_neg (by omega), hheader]
    simp only [Option.bind_eq_bind, Option.bind_some]
    rw [if_neg (by simp [hmagic, hwave]), if_neg (by omega), hriffEnd]
    simp only [Option.bind_some, hwalk]
    rw [if_neg]
    rw [hfollows.cursor, hfollows.hasFmt, hfollows.hasData, hformat, hdata, halign, hend, hmod]
    simp
  refine ⟨stateOf w, by rw [openFile_eq, hparse, Option.map_some], hrate, hchannels, ?_⟩
  rw [← Option.some.inj h, hframes, ← halign]
  rfl

/-- Three mono frames in front of the format, behind a chunk of odd length. -/
def monoFile : Bytes :=
  bytes "RIFF" ++ littleEndian 4 52 ++ bytes "WAVE" ++ bytes "junk" ++ littleEndian 4 1 ++ [7, 0] ++
    bytes "data" ++ littleEndian 4 6 ++ littleEndian 2 16384 ++ littleEndian 2 65535 ++
    littleEndian 2 1 ++ bytes "fmt " ++ littleEndian 4 16 ++ littleEndian 2 1 ++ littleEndian 2 1 ++
    littleEndian 4 44100 ++ littleEndian 4 88200 ++ littleEndian 2 2 ++ littleEndian 2 16

theorem openFile_of_decodedWavFrames_monoFile :
    ∃ state, WavChunkReader.openFile monoFile = some state ∧ state.metadata.sampleRate = 44100 ∧
      state.metadata.channels = 1 ∧ state.metadata.frameCount = 3 :=
  openFile_of_decodedWavFrames
    (show decodedWavFrames monoFile monoFile.length false = some 3 by decide +kernel)

end Resonantia.Web.DecodedWav
