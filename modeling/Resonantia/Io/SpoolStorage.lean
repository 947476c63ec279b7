import Resonantia.Io.RawSampleSpool
import Resonantia.Io.WavProtocol

/-!
# The storage of raw sample spools

Below a `RawSampleSpool` there is a private file. Its samples are written and read by system calls
that may move fewer bytes than they were asked for, or fail; an identity that is captured before and
after every operation shows whether others have changed the attributes of the file. A call that
`EINTR` interrupts is repeated, so that the environment tells the first result that is none.

## Main definitions

* `Io.StoredSample`: the bytes of a sample.
* `Io.SpoolStorage.create`, `Io.SpoolStorage.append`, `Io.SpoolStorage.read`: the calls.
* `Io.SpoolStorage.perform`, `Io.SpoolStorage.Run`: sequences of calls.
-/

namespace Resonantia.Io

open ByteString Effect Slices

/-- A sample type with the bytes that a sample has in memory. -/
class StoredSample (α : Type) extends Sample α where
  elementSize : ℕ
  encode : α → Bytes
  decode : Bytes → α
  elementSize_pos : 0 < elementSize
  length_encode : ∀ x, (encode x).length = elementSize
  decode_encode : ∀ x, decode (encode x) = x

/-- `float`. -/
instance : StoredSample UInt32 where
  isFinite := FloatWord.isFinite
  elementSize := 4
  encode := FloatWord.toBytes
  decode b := (ofLittleEndian b).toUInt32
  elementSize_pos := by decide
  length_encode := FloatWord.length_toBytes
  decode_encode w := by
    rw [FloatWord.toBytes, ofLittleEndian_littleEndian w.toNat_lt]
    exact UInt32.ofNat_toNat

/-- `double`. -/
instance : StoredSample UInt64 where
  isFinite w := (w.toNat / 2 ^ 52) % 2 ^ 11 ≠ 2 ^ 11 - 1
  elementSize := 8
  encode w := littleEndian 8 w.toNat
  decode b := (ofLittleEndian b).toUInt64
  elementSize_pos := by decide
  length_encode _ := length_littleEndian 8 _
  decode_encode w := by
    rw [ofLittleEndian_littleEndian w.toNat_lt]
    exact UInt64.ofNat_toNat

namespace SpoolStorage

open StoredSample
open WavWriter (writeAt writeAt_length normalizedDirectory kTemporaryCreateAttempts)
open Pipeline (checkedAdd checkedMul)

/-! ### The file -/

def kIoChunkBytes : ℕ := 1024 * 1024

structure FileIdentity where
  device : ℕ
  inode : ℕ
  size : ℕ
  mode : ℕ
  links : ℕ
  mtime : ℤ × ℤ
  ctime : ℤ × ℤ
deriving DecidableEq

/-- `same_object`. -/
def sameObject (left right : FileIdentity) : Bool :=
  left.device = right.device ∧ left.inode = right.inode

/-- `same_identity`. -/
def sameIdentity (left right : FileIdentity) : Bool :=
  sameObject left right && left.size = right.size && left.mode = right.mode &&
    left.links = right.links && left.mtime = right.mtime && left.ctime = right.ctime

/-- What `pread` or `pwrite` does; a failed write may have written a part. -/
inductive Transfer
  | moved (count : ℕ)
  | failed (part : ℕ)

/-- What `openat` does with a temporary name. -/
inductive Opened
  | created
  | taken
  | failed

/-- The results of the system calls by the number of the call. -/
structure Environment where
  opensDirectory : ℕ → Bool
  openat : ℕ → Opened
  /-- Whether `fstat` succeeds, and what others have done to the attributes before. -/
  fstat : ℕ → Option (FileIdentity → FileIdentity)
  transfer : ℕ → Transfer
  /-- The time of a write. -/
  clock : ℕ → ℤ × ℤ
  /-- Whether the memory for the output of a read is there. -/
  allocates : ℕ → Bool

/-- `RawSampleSpoolStorage::State` without the descriptors and the name. -/
structure State where
  identity : FileIdentity
  sampleCount : ℕ
  failed : Bool

/-- The file behind the descriptor and its attributes other than the size, and the spool. -/
structure World where
  file : Bytes
  attributes : FileIdentity
  state : Option State
  environment : Environment
  ticks : ℕ

/-- Operations that may return `false`. -/
abbrev SpoolM := ExceptT Unit (StateM World)

/-- The next result of the environment. -/
def ask {β : Type} (answer : Environment → ℕ → β) : SpoolM β := do
  let w ← get
  modify fun w => { w with ticks := w.ticks + 1 }
  pure (answer w.environment w.ticks)

/-- `capture_identity`. -/
def captureIdentity : SpoolM (Option FileIdentity) := do
  match ← ask Environment.fstat with
  | none => pure none
  | some change => do
    modify fun w => { w with attributes := change w.attributes }
    let w ← get
    pure (some { w.attributes with size := w.file.length })

/-- `checked_file_range`. -/
def checkedFileRange (offset size : ℕ) : Bool :=
  match checkedAdd offset size with
  | none => false
  | some rangeEnd => offset ≤ offMax && rangeEnd ≤ offMax

/-- The content and the time of the file after a write. -/
def World.written (w : World) (data : Bytes) (offset : ℕ) : World :=
  let time := w.environment.clock w.ticks
  { w with
    file := writeAt w.file data offset
    attributes := { w.attributes with mtime := time, ctime := time } }

/-- The loop of `pwrite_exact`; every turn but the last writes at least one byte. -/
def pwriteLoop : ℕ → Bytes → ℕ → SpoolM Bool
  | 0, _, _ => pure true
  | turns + 1, input, offset =>
    if input = [] then pure true
    else do
      match ← ask Environment.transfer with
      | .failed part => do
        modify fun w => w.written (input.take part) offset
        pure false
      | .moved count =>
        let consumed := min count (min input.length kIoChunkBytes)
        if consumed = 0 then pure false
        else do
          modify fun w => w.written (input.take consumed) offset
          pwriteLoop turns (input.drop consumed) (offset + consumed)

/-- `pwrite_exact`. -/
def pwriteExact (input : Bytes) (offset : ℕ) : SpoolM Bool :=
  if input = [] then pure true
  else if checkedFileRange offset input.length = false then pure false
  else pwriteLoop input.length input offset

/-- The loop of `pread_exact`, which ends early where the file does. -/
def preadLoop : ℕ → ℕ → ℕ → Bytes → SpoolM (Option Bytes)
  | 0, _, _, output => pure (some output)
  | turns + 1, remaining, offset, output =>
    if remaining = 0 then pure (some output)
    else do
      match ← ask Environment.transfer with
      | .failed _ => pure none
      | .moved count => do
        let w ← get
        let consumed := min count (min (min remaining kIoChunkBytes) (w.file.length - offset))
        if consumed = 0 then pure none
        else
          preadLoop turns (remaining - consumed) (offset + consumed)
            (output ++ slice w.file offset (offset + consumed))

/-- `pread_exact`. -/
def preadExact (size offset : ℕ) : SpoolM (Option Bytes) :=
  if size = 0 then pure (some [])
  else if checkedFileRange offset size = false then pure none
  else preadLoop size size offset []

/-! ### The operations -/

/-- `state.failed = true; return false;` -/
def fail {β : Type} : SpoolM β := do
  modify fun w => { w with state := w.state.map fun state => { state with failed := true } }
  throw ()

/-- `close_storage`. -/
def close : SpoolM Unit := modify fun w => { w with state := none }

/-- The loop over the temporary names. -/
def createFile : ℕ → SpoolM Bool
  | 0 => pure false
  | attempts + 1 => do
    match ← ask Environment.openat with
    | .created => do
      modify fun w => { w with file := [] }
      pure true
    | .taken => createFile attempts
    | .failed => pure false

/-- `create_storage`. -/
def createStorage (elementSize : ℕ) (directory : Bytes) : SpoolM Unit := do
  close
  if elementSize ≠ 4 ∧ elementSize ≠ 8 then throw ()
  else if 0 ∈ normalizedDirectory directory then throw ()
  else if ← ask Environment.opensDirectory then
    if ← createFile kTemporaryCreateAttempts then
      match ← captureIdentity with
      | none => throw ()
      | some identity =>
        if identity.size ≠ 0 then throw ()
        else modify fun w => { w with state := some ⟨identity, 0, false⟩ }
    else throw ()
  else throw ()

/-- The count of samples and the size of the file after an append. -/
def grown (elementSize sampleCount count : ℕ) : Option (ℕ × ℕ) :=
  match checkedAdd sampleCount count, checkedMul count elementSize with
  | some newCount, some appendBytes =>
    if 2 ^ 64 - 1 < appendBytes then none
    else
      match checkedMul newCount elementSize with
      | none => none
      | some newBytes => if offMax < newBytes then none else some (newCount, newBytes)
  | _, _ => none

/-- The size that the file must have before an append, if the identity is the one last seen. -/
def expectedBytes (elementSize : ℕ) (state : State) (before : FileIdentity) : Option ℕ :=
  if sameIdentity state.identity before = false then none
  else
    match checkedMul state.sampleCount elementSize with
    | none => none
    | some bytes => if bytes ≠ before.size then none else some bytes

/-- `append_storage`. -/
def appendStorage (elementSize : ℕ) (samples : Bytes) (count : ℕ) : SpoolM Unit := do
  let w ← get
  match w.state with
  | none => throw ()
  | some state =>
    if state.failed = true then throw ()
    else if count = 0 then pure ()
    else do
      match (← captureIdentity).bind (expectedBytes elementSize state) with
      | none => fail
      | some offset =>
        match grown elementSize state.sampleCount count with
        | none => fail
        | some (newCount, newBytes) =>
          if ← pwriteExact samples offset then
            match ← captureIdentity with
            | none => fail
            | some after =>
              if sameObject state.identity after = false ∨ after.size ≠ newBytes then fail
              else modify fun w => { w with state := some ⟨after, newCount, false⟩ }
          else fail

/-- The byte range of a read. -/
def byteRange (elementSize first count : ℕ) : Option (ℕ × ℕ) :=
  match checkedMul first elementSize, checkedMul count elementSize with
  | some offset, some size => if 2 ^ 64 - 1 < size then none else some (offset, size)
  | _, _ => none

/-- Whether the range of a read lies in the spool. -/
def inRange (state : State) (first count : ℕ) : Bool :=
  match checkedAdd first count with
  | none => false
  | some endSample => endSample ≤ state.sampleCount

/-- The identity is the one last seen. -/
def unchanged (state : State) : SpoolM Bool := do
  match ← captureIdentity with
  | none => pure false
  | some identity => pure (sameIdentity state.identity identity)

/-- `read_storage`. -/
def readStorage (elementSize first count : ℕ) : SpoolM Bytes := do
  let w ← get
  match w.state with
  | none => throw ()
  | some state =>
    if state.failed = true then throw ()
    else if inRange state first count = false then throw ()
    else if ← unchanged state then
      match byteRange elementSize first count with
      | none => fail
      | some (offset, size) =>
        match ← preadExact size offset with
        | none => fail
        | some output => if ← unchanged state then pure output else fail
    else fail

section Sample

variable {α : Type} [StoredSample α]

/-- `append`: every sample is checked before the storage grows. -/
def append (samples : List α) : SpoolM Unit :=
  if samples.all Sample.isFinite = false then throw ()
  else appendStorage (elementSize α) (samples.flatMap encode) samples.length

/-- The samples in memory. -/
def decodeAll : ℕ → Bytes → List α
  | 0, _ => []
  | count + 1, data =>
    decode (data.take (elementSize α)) :: decodeAll count (data.drop (elementSize α))

variable (α) in
/-- `std::vector::max_size`. -/
def maxSize : ℕ := (2 ^ 63 - 1) / elementSize α

/-- `read`. -/
def read (first count : ℕ) : SpoolM (List α) := do
  if maxSize α < count then throw ()
  else if ← ask Environment.allocates then
    let output := decodeAll count (← readStorage (elementSize α) first count)
    if output.all Sample.isFinite = false then throw () else pure output
  else throw ()

/-! ### Sequences of calls -/

variable (α) in
inductive Call
  | create (directory : Bytes)
  | append (samples : List α)
  | read (first count : ℕ)
  | close

variable (α) in
/-- What a call returns: `true`, `true` with samples, or `false`. -/
inductive Reply
  | done
  | samples (output : List α)
  | refused
deriving DecidableEq

def reply {β : Type} (f : β → Reply α) : Except Unit β × World → Reply α × World
  | (.ok b, w) => (f b, w)
  | (.error _, w) => (.refused, w)

/-- One call. -/
def perform (call : Call α) (w : World) : Reply α × World :=
  match call with
  | .create directory => reply (fun _ => .done) (exec (createStorage (elementSize α) directory) w)
  | .append samples => reply (fun _ => .done) (exec (append samples) w)
  | .read first count => reply .samples (exec (read first count) w)
  | .close => reply (fun _ => .done) (exec close w)

variable (α) in
/-- A sequence of calls with their replies, the latest first. -/
inductive Run (start : World) : List (Call α × Reply α) → World → Prop
  | nil : Run start [] start
  | cons {history : List (Call α × Reply α)} {w : World} (h : Run start history w) (call : Call α) :
      Run start ((call, (perform call w).1) :: history) (perform call w).2

end Sample

end SpoolStorage

end Resonantia.Io
