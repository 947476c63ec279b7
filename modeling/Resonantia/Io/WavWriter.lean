import Resonantia.Io.WavFile
import Resonantia.Library.FileSystem
import Resonantia.Library.Json

/-!
# The atomic WAV writer

`AtomicWavStreamWriter` writes a mono PCM file of a declared length beside its target: a
provisional header, then the samples as they arrive in pieces, then the header with the sizes, and
a rename onto the target. Every system call may fail or be the last thing that the process does.
The staging file is the writer's own, so that of its identity only the size can differ between two
looks at it.

## Main definitions

* `Io.WavWriter.openWriter`, `Io.WavWriter.appendImpl`, `Io.WavWriter.commit`,
  `Io.WavWriter.abort`: the calls.
* `Io.WavWriter.System`, `Io.WavWriter.perform`, `Io.WavWriter.Run`: sequences of calls.
-/

namespace Resonantia.Io.WavWriter

open ByteString BinaryFloat Effect FileSystem FloatWord Wav
open Pipeline (checkedAdd checkedMul)

/-! ### The format -/

def kPcmWriteBufferBytes : ℕ := 8192

def kTemporaryCreateAttempts : ℕ := 128

def kWavHeaderBytes : ℕ := 44

structure WavOutputLayout where
  dataBytes : ℕ
  riffSize : ℕ
  byteRate : ℕ

/-- `wav_output_layout`. -/
def wavOutputLayout (sampleRate : ℤ) (samples : ℕ) : Option WavOutputLayout := do
  if sampleRate ≤ 0 then none
  else
    let byteRate := sampleRate.toNat * 2
    let dataBytes ← checkedMul samples 2
    let riffSize ← checkedAdd 36 dataBytes
    if 2 ^ 32 - 1 < dataBytes ∨ 2 ^ 32 - 1 < riffSize ∨ 2 ^ 32 - 1 < byteRate then none
    else some ⟨dataBytes, riffSize, byteRate⟩

/-- `make_wav_header`. -/
def makeWavHeader (sampleRate : ℤ) (layout : WavOutputLayout) (finalSizes : Bool) : Bytes :=
  bytes "RIFF" ++ littleEndian 4 (if finalSizes = true then layout.riffSize else 0) ++
    bytes "WAVEfmt " ++ littleEndian 4 16 ++ littleEndian 2 kPcm ++ littleEndian 2 1 ++
    littleEndian 4 sampleRate.toNat ++ littleEndian 4 layout.byteRate ++ littleEndian 2 2 ++
    littleEndian 2 16 ++ bytes "data" ++
    littleEndian 4 (if finalSizes = true then layout.dataBytes else 0)

/-- Rounding toward zero. -/
def truncate (q : ℚ) : ℤ := if q < 0 then -⌊-q⌋ else ⌊q⌋

/-- A sample that an append does not take. -/
def rejects (exactPcm16 : Bool) (sample : UInt32) : Bool :=
  !isFinite sample || exactPcm16 && (value sample < -1 || 32767 / 32768 < value sample ||
    truncate (binary32.nearestSigned (value sample * 32768)) ≠
      binary32.nearestSigned (value sample * 32768))

/-- The 16-bit value of a sample. -/
def quantize (exactPcm16 : Bool) (sample : UInt32) : ℤ :=
  truncate (binary32.nearestSigned (if exactPcm16 = true then value sample * 32768
    else max (-1) (min (value sample) 1) * 32767))

/-- A 16-bit value in memory. -/
def encodePcm (pcm : ℤ) : Bytes := littleEndian 2 (pcm % 65536).toNat

/-! ### The writer -/

/-- A path as a directory and the name of a file. -/
structure Target where
  parent : Bytes
  name : Bytes
deriving DecidableEq

/-- `normalized_directory`. -/
def normalizedDirectory (directory : Bytes) : Bytes :=
  if directory = [] then bytes "." else directory

def pathIn (directory name : Bytes) : FileName := directory ++ [47] ++ name

/-- The path that a writer replaces. -/
def Target.path (target : Target) : FileName :=
  pathIn (normalizedDirectory target.parent) target.name

/-- `AtomicWavStreamWriter::State`. Of the identity of the staging file there is its size. -/
structure State where
  directory : Bytes
  stagingName : Bytes
  targetName : Bytes
  identity : ℕ
  layout : WavOutputLayout
  sampleRate : ℤ
  expectedSamples : ℕ
  samplesWritten : ℕ
  failed : Bool

def State.stagingPath (state : State) : FileName := pathIn state.directory state.stagingName

def State.targetPath (state : State) : FileName := pathIn state.directory state.targetName

/-- The memory of the process: `g_temporary_sequence` and the writer. -/
structure Writer where
  sequence : ℕ
  state : Option State

abbrev WriterM := FileM Writer

/-- `temporary_name`. -/
def temporaryName (process sequence : ℕ) : Bytes :=
  bytes ".resonantia-wav-stream-" ++ Json.decimalText process ++ bytes "-" ++
    Json.decimalText sequence ++ bytes ".tmp"

/-- The content after a write at an offset. -/
def writeAt (content data : Bytes) (offset : ℕ) : Bytes :=
  content.take offset ++ List.replicate (offset - content.length) 0 ++ data ++
    content.drop (offset + data.length)

/-- `pwrite_exact`; when it fails, a part may have been written. -/
def pwriteExact (path : FileName) (data : Bytes) (offset : ℕ) : WriterM Bool :=
  if data = [] then pure true
  else if maxOffset < offset + data.length then pure false
  else
    let change (data : Bytes) (w : World Writer) : World Writer :=
      { w with files := put w.files path (writeAt ((find w.files path).getD []) data offset) }
    succeeds (syscall "pwrite" (change data) fun n => change (data.take n))

/-- `capture_identity`. -/
def captureIdentity (path : FileName) : WriterM (Option ℕ) := do
  if ← succeeds (check "fstat") then
    let w ← get
    pure ((find w.files path).map List.length)
  else pure none

/-- The staging file is removed by the destructor of a state whose identity was captured. -/
def removeStaging (path : FileName) : WriterM Unit := do
  if ← succeeds (check "fstatat") then
    let w ← get
    if (find w.files path).isSome = true then do
      let _ ← succeeds (syscall "unlinkat" (fun w => { w with files := erase w.files path })
        fun _ => id)
      pure ()
    else pure ()
  else pure ()

def setState (state : Option State) : WriterM Unit :=
  modify fun w => { w with memory := { w.memory with state } }

/-- `abort`. -/
def abort : WriterM Unit := do
  let w ← get
  match w.memory.state with
  | none => pure ()
  | some state => do
    setState none
    removeStaging state.stagingPath

/-- The loop that creates a staging file under a name that is not taken. -/
def createStaging (process : ℕ) (directory : Bytes) : ℕ → WriterM (Option Bytes)
  | 0 => pure none
  | attempts + 1 => do
    let w ← get
    let name := temporaryName process w.memory.sequence
    modify fun w => { w with memory := { w.memory with sequence := w.memory.sequence + 1 } }
    if ← succeeds (check "openat") then
      if (find w.files (pathIn directory name)).isSome = true then
        createStaging process directory attempts
      else do
        modify fun w => { w with files := put w.files (pathIn directory name) [] }
        pure (some name)
    else pure none

/-- `open`. -/
def openWriter (process : ℕ) (target : Target) (sampleRate : ℤ) (expectedSamples : ℕ) :
    WriterM Bool := do
  abort
  if 0 ∈ target.parent ∨ 0 ∈ target.name ∨ target.name = [] then pure false
  else
    match wavOutputLayout sampleRate expectedSamples with
    | none => pure false
    | some layout => do
      let directory := normalizedDirectory target.parent
      if ← succeeds (check "open directory") then
        match ← createStaging process directory kTemporaryCreateAttempts with
        | none => pure false
        | some stagingName => do
          let path := pathIn directory stagingName
          if ← pwriteExact path (makeWavHeader sampleRate layout false) 0 then
            match ← captureIdentity path with
            | none => pure false
            | some size =>
              if size ≠ kWavHeaderBytes then do
                removeStaging path
                pure false
              else do
                setState (some
                  { directory, stagingName, targetName := target.name, identity := size, layout
                    sampleRate, expectedSamples, samplesWritten := 0, failed := false })
                pure true
          else pure false
      else pure false

/-- A failure that later calls see. -/
def failWith (state : State) : WriterM Bool := do
  setState (some { state with failed := true })
  pure false

/-- The buffer of encoded samples is written whenever it is full, and at the end. -/
def flushAll (path : FileName) (data : Bytes) (offset : ℕ) : WriterM Bool :=
  if _hdata : data = [] then pure true
  else do
    let encoded := data.take kPcmWriteBufferBytes
    if ← pwriteExact path encoded offset then
      flushAll path (data.drop kPcmWriteBufferBytes) (offset + encoded.length)
    else pure false
termination_by data.length
decreasing_by
  have := List.length_pos_of_ne_nil _hdata
  rw [List.length_drop, kPcmWriteBufferBytes]
  omega

/-- `append_impl`, behind `append` and `append_decoded_pcm16`. -/
def appendImpl (samples : List UInt32) (exactPcm16 : Bool) : WriterM Bool := do
  let w ← get
  match w.memory.state with
  | none => pure false
  | some state =>
    if state.failed = true then pure false
    else if samples = [] then pure true
    else if samples.any (rejects exactPcm16) = true then failWith state
    else
      match checkedAdd state.samplesWritten samples.length with
      | none => failWith state
      | some newCount =>
        if state.expectedSamples < newCount then failWith state
        else
          match (checkedMul state.samplesWritten 2).bind (checkedAdd kWavHeaderBytes) with
          | none => failWith state
          | some expectedSize => do
            let before ← captureIdentity state.stagingPath
            if before ≠ some state.identity ∨ before ≠ some expectedSize then failWith state
            else
              let data := samples.flatMap fun sample => encodePcm (quantize exactPcm16 sample)
              if ← flushAll state.stagingPath data expectedSize then
                match (checkedMul newCount 2).bind (checkedAdd kWavHeaderBytes) with
                | none => failWith state
                | some finalSize => do
                  let after ← captureIdentity state.stagingPath
                  if after ≠ some finalSize then failWith state
                  else do
                    setState (some
                      { state with identity := finalSize, samplesWritten := newCount })
                    pure true
              else failWith state

/-- `abort` at a failure of `commit`. -/
def abandon : WriterM Bool := do
  abort
  pure false

/-- `commit`. The rename is the commit point; what follows it cannot fail the commit. -/
def commit : WriterM Bool := do
  let w ← get
  match w.memory.state with
  | none => abandon
  | some state =>
    if state.failed = true ∨ state.samplesWritten ≠ state.expectedSamples then abandon
    else
      match checkedAdd kWavHeaderBytes state.layout.dataBytes with
      | none => abandon
      | some expectedSize => do
        let before ← captureIdentity state.stagingPath
        if before ≠ some state.identity ∨ before ≠ some expectedSize then abandon
        else if ← pwriteExact state.stagingPath
            (makeWavHeader state.sampleRate state.layout true) 0 then
          let afterHeader ← captureIdentity state.stagingPath
          if afterHeader ≠ some expectedSize then abandon
          else if ← succeeds (check "fsync") then
            if ← succeeds (check "close") then
              if ← succeeds (check "fstatat") then
                if ← succeeds (syscall "renameat" (fun w => { w with
                    files := rename w.files state.stagingPath state.targetPath
                    renamed := state.targetPath :: w.renamed }) fun _ => id) then
                  let _ ← succeeds (check "fsync directory")
                  setState none
                  pure true
                else abandon
              else abandon
            else abandon
          else abandon
        else abandon

/-! ### Sequences of calls -/

inductive Call
  | openWriter (target : Target) (sampleRate : ℤ) (expectedSamples : ℕ)
  | append (samples : List UInt32)
  | appendDecodedPcm16 (samples : List UInt32)
  | commit
  | abort
deriving DecidableEq

/-- The body of a call. -/
def Call.run (process : ℕ) : Call → WriterM Bool
  | .openWriter target sampleRate expectedSamples =>
    WavWriter.openWriter process target sampleRate expectedSamples
  | .append samples => appendImpl samples false
  | .appendDecodedPcm16 samples => appendImpl samples true
  | .commit => WavWriter.commit
  | .abort => do
    WavWriter.abort
    pure true

/-- The files and the memory of the process. -/
structure System where
  files : Files
  renamed : List FileName
  memory : Writer

/-- One call: what it returns, or nothing when the process died in it. -/
def perform (process : ℕ) (environment : FileSystem.Environment) (call : Call) (s : System) :
    Option Bool × System :=
  match exec (call.run process) ⟨s.files, s.renamed, s.memory, environment, 0⟩ with
  | (.ok reply, w) => (some reply, ⟨w.files, w.renamed, w.memory⟩)
  | (.error _, w) => (none, ⟨w.files, w.renamed, { w.memory with state := none }⟩)

/-- A sequence of calls with their replies, the latest first. -/
inductive Run (process : ℕ) (start : System) : List (Call × Option Bool) → System → Prop
  | nil : Run process start [] start
  | cons {history : List (Call × Option Bool)} {s : System} (h : Run process start history s)
      (environment : FileSystem.Environment) (call : Call) :
      Run process start ((call, (perform process environment call s).1) :: history)
        (perform process environment call s).2

end Resonantia.Io.WavWriter
