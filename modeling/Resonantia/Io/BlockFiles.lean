import Resonantia.Io.BlockCheckpoint
import Resonantia.Library.FileSystem
import Resonantia.Library.FloatWord
import Resonantia.Library.Json

/-!
# Block checkpoints as files

The directory of a `BlockCheckpoint`, file by file and system call by system call. A publication
writes `<name>.pending` and renames it; opening the directory reads the identity, removes what
crashed publications left and counts the blocks. The lock file, which the scan passes over, is the
rule that one session is open at a time.

## Main definitions

* `Io.BlockFiles.publish`, `Io.BlockFiles.openCheckpoint`, `Io.BlockFiles.read`,
  `Io.BlockFiles.save`: the operations under faults.
* `Io.BlockFiles.System`, `Io.BlockFiles.perform`: a directory with an open session, if any, and
  the calls of its owners.
* `Io.BlockFiles.Run`: sequences of calls, each under any environment.
-/

namespace Resonantia.Io.BlockFiles

open ByteString Effect FileSystem FloatWord

/-- The checksum function, SHA-256 in hexadecimal digits. -/
structure Checksum where
  hex : Bytes → Bytes
  length_hex : ∀ message, (hex message).length = 64

/-! ### Names and contents -/

def isKeyByte (c : UInt8) : Bool := 97 ≤ c && c ≤ 122 || 48 ≤ c && c ≤ 57 || c = 95 || c = 45

/-- `valid_key`. -/
def validKey (key : Bytes) : Bool := !key.isEmpty && key.length ≤ 64 && key.all isKeyByte

def isHexByte (c : UInt8) : Bool := 48 ≤ c && c ≤ 57 || 97 ≤ c && c ≤ 102

/-- `core::valid_digest`. -/
def validDigest (digest : Bytes) : Bool := digest.length == 64 && digest.all isHexByte

def identityName : FileName := bytes "identity"

def blockSuffix : Bytes := bytes ".block"

def pendingSuffix : Bytes := bytes ".pending"

def blockName (key : Bytes) : FileName := key ++ blockSuffix

def pendingName (name : FileName) : FileName := name ++ pendingSuffix

/-- A name without this ending. -/
def stripSuffix (suffix name : Bytes) : Option Bytes :=
  if suffix <:+ name then some (name.take (name.length - suffix.length)) else none

/-- The name of a block. -/
def isBlock (name : FileName) : Bool := (stripSuffix blockSuffix name).any validKey

/-- The name of a block that is being written. -/
def isPendingBlock (name : FileName) : Bool :=
  (stripSuffix (blockSuffix ++ pendingSuffix) name).any validKey

/-- The content of the identity file. -/
def manifest (identity : Bytes) : Bytes := bytes "RESONANTIA_BLOCKS 1\n" ++ identity ++ [10]

def magic : Bytes := bytes "RSBLK001"

/-- `digest`. -/
def digest (sha : Checksum) (identity key : Bytes) (offset : UInt64) (data : List UInt32) : Bytes :=
  sha.hex (identity ++ [10] ++ key ++ [10] ++ Json.decimalText offset.toNat ++ [10] ++
    Json.decimalText data.length ++ [10] ++ data.flatMap toBytes)

/-- The header of a block file. -/
def header (sha : Checksum) (identity key : Bytes) (offset : UInt64) (data : List UInt32) :
    Bytes :=
  magic ++ identity ++ littleEndian 8 offset.toNat ++ littleEndian 8 data.length ++
    digest sha identity key offset data ++ littleEndian 8 0

/-- `get64`. -/
def get64 (header : Bytes) (position : ℕ) : ℕ := ofLittleEndian ((header.drop position).take 8)

/-- The checks of a block file that was found, and its samples. -/
def readBlock (sha : Checksum) (identity key : Bytes) (offset : UInt64) (count : ℕ)
    (content : Bytes) : Except String (List UInt32) :=
  if content.length ≠ headerSize + 4 * count then
    .error "checkpoint block size or type mismatch"
  else if content.take 8 ≠ magic ∨ (content.drop 8).take 64 ≠ identity ∨
      get64 content 72 ≠ offset.toNat ∨ get64 content 80 ≠ count ∨ get64 content 152 ≠ 0 then
    .error "checkpoint block metadata mismatch"
  else
    let data := ofBytes (content.drop headerSize)
    if data.all isFinite = false then .error "checkpoint contains non-finite data"
    else if (content.drop 88).take 64 ≠ digest sha identity key offset data then
      .error "checkpoint block checksum mismatch"
    else .ok data

/-! ### Publication -/

section

variable {μ : Type}

def throwFailed {α : Type} (message : String) : FileM μ α := throw (.failed message)

/-- Append to a file; a call that does not succeed may have written a part. -/
def write (name : FileName) (content : Bytes) : FileM μ Unit :=
  let extend (content : Bytes) (w : World μ) : World μ :=
    { w with files := put w.files name ((find w.files name).getD [] ++ content) }
  syscall "checkpoint write failed" (extend content) fun n => extend (content.take n)

def unlink (message : String) (name : FileName) : FileM μ Unit :=
  syscall message (fun w => { w with files := erase w.files name }) fun _ => id

/-- The handler of a publication that did not come to the rename. A crash runs no handler. -/
def discard (pending : FileName) : Stop → FileM μ Unit
  | .crashed => throw .crashed
  | .failed message => do
    tryCatch (unlink "" pending) fun
      | .crashed => throw .crashed
      | .failed _ => pure ()
    throw (.failed message)

/-- `BlockCheckpoint::Impl::publish`. -/
def publish (name : FileName) (head data : Bytes) : FileM μ Unit := do
  let w ← get
  if (find w.files (pendingName name)).isSome then
    throwFailed "cannot create checkpoint staging file"
  else
    syscall "cannot create checkpoint staging file"
      (fun w => { w with files := put w.files (pendingName name) [] }) fun _ => id
    tryCatch
      (do
        write (pendingName name) head
        write (pendingName name) data
        check "checkpoint file sync failed"
        syscall "checkpoint publication failed"
          (fun w => { w with
            files := rename w.files (pendingName name) name
            renamed := name :: w.renamed })
          fun _ => id)
      (discard (pendingName name))
    check "checkpoint publication directory sync failed"

/-! ### Opening -/

inductive Mode
  | create
  | resume
deriving DecidableEq

/-- `BlockCheckpoint::Impl`. -/
structure Impl where
  identity : Bytes
  limits : Limits
  bytes : ℕ
  blocks : ℕ
  hits : ℕ
  healthy : Bool

/-- The limits that the constructor takes. -/
def validLimits (limits : Limits) : Bool :=
  4 ≤ limits.blockBytes && limits.blockBytes ≤ 32 * 1024 * 1024 &&
    headerSize + 4 ≤ limits.totalBytes && limits.totalBytes ≤ 2 * 1024 * 1024 * 1024 &&
    limits.blocks != 0 && limits.blocks ≤ 4096

/-- Whether the identity is still to be published. -/
def readIdentity (mode : Mode) (identity : Bytes) : FileM μ Bool :=
  match mode with
  | .create => pure true
  | .resume => do
    check "checkpoint identity missing or malformed"
    let w ← get
    match find w.files identityName with
    | none => pure true
    | some content =>
      if content.length ≠ (manifest identity).length then
        throwFailed "checkpoint identity missing or malformed"
      else if content ≠ manifest identity then throwFailed "checkpoint identity mismatch"
      else pure false

/-- The counters of the scan. -/
structure Scan where
  scanned : ℕ
  bytes : ℕ
  blocks : ℕ

/-- One entry of the scan. -/
def scanEntry (mode : Mode) (initializing : Bool) (limits : Limits) (scan : Scan)
    (file : FileName × Bytes) : FileM μ Scan := do
  check "checkpoint directory scan failed"
  let scan := { scan with scanned := scan.scanned + 1 }
  if 8194 < scan.scanned then throwFailed "checkpoint directory entry limit exceeded"
  else if mode = .create then throwFailed "new checkpoint directory is not empty"
  else if file.1 = identityName then pure scan
  else if initializing then
    if file.1 = pendingName identityName ∧ file.2.length ≤ 256 then pure scan
    else throwFailed "checkpoint identity missing with existing block data"
  else if isPendingBlock file.1 then do
    unlink "cannot remove incomplete checkpoint block" file.1
    pure scan
  else if isBlock file.1 = false ∨ file.2.length < headerSize + 4 ∨
      headerSize + limits.blockBytes < file.2.length then
    throwFailed "invalid checkpoint block entry"
  else if limits.blocks < scan.blocks + 1 ∨ limits.totalBytes - scan.bytes < file.2.length then
    throwFailed "checkpoint disk limit exceeded"
  else pure { scan with blocks := scan.blocks + 1, bytes := scan.bytes + file.2.length }

/-- The end of the constructor where the identity is still to be published. -/
def publishIdentity (mode : Mode) (identity : Bytes) : FileM μ Unit := do
  match mode with
  | .create => pure ()
  | .resume => unlink "cannot remove incomplete checkpoint identity" (pendingName identityName)
  publish identityName (manifest identity) []

/-- The constructor on an existing directory that nobody else owns. -/
def openCheckpoint (mode : Mode) (identity : Bytes) (limits : Limits) : FileM μ Impl :=
  if validDigest identity = false ∨ validLimits limits = false then
    throwFailed "invalid checkpoint identity or limits"
  else do
    check "cannot open checkpoint directory"
    check "checkpoint directory is already owned or lock is invalid"
    let initializing ← readIdentity mode identity
    let w ← get
    let scan ← (w.environment.listing w.files).foldlM (scanEntry mode initializing limits) ⟨0, 0, 0⟩
    if initializing then publishIdentity mode identity else pure ()
    check "checkpoint directory sync failed"
    pure { identity, limits, bytes := scan.bytes, blocks := scan.blocks, hits := 0, healthy := true }

end

/-! ### Reading and saving -/

def ofExcept {α : Type} : Except String α → FileM Impl α
  | .error message => throwFailed message
  | .ok a => pure a

/-- `BlockCheckpoint::Impl::read`; a block does not change while it is read. -/
def read (sha : Checksum) (key : Bytes) (offset : UInt64) (count : ℕ) :
    FileM Impl (Option (List UInt32)) := do
  let w ← get
  if w.memory.healthy = false then
    throwFailed "checkpoint storage failed; reopen before further work"
  else if validKey key = false then throwFailed "invalid checkpoint key"
  else if count = 0 ∨ w.memory.limits.blockBytes / 4 < count then
    throwFailed "checkpoint count out of bounds"
  else do
    check "cannot read checkpoint block"
    match find w.files (blockName key) with
    | none => pure none
    | some content => do
      check "checkpoint truncated/read failed"
      let data ← ofExcept (readBlock sha w.memory.identity key offset count content)
      pure (some data)

/-- `BlockCheckpoint::load`. -/
def load (sha : Checksum) (key : Bytes) (offset : UInt64) (count : ℕ) :
    FileM Impl (Option (List UInt32)) := do
  let value ← read sha key offset count
  if value.isSome then
    modify fun w => { w with memory := { w.memory with hits := w.memory.hits + 1 } }
  else pure ()
  pure value

/-- The handler around `publish`: a failure makes the checkpoint unusable. -/
def markUnhealthy : Stop → FileM Impl Unit
  | .crashed => throw .crashed
  | .failed message => do
    modify fun w => { w with memory := { w.memory with healthy := false } }
    throw (.failed message)

/-- `BlockCheckpoint::save`. -/
def save (sha : Checksum) (key : Bytes) (offset : UInt64) (data : List UInt32) :
    FileM Impl Unit := do
  let w ← get
  if validKey key = false then throwFailed "invalid checkpoint key"
  else if data = [] ∨ w.memory.limits.blockBytes / 4 < data.length then
    throwFailed "checkpoint count out of bounds"
  else if data.all isFinite = false then throwFailed "checkpoint contains non-finite data"
  else do
    match ← read sha key offset data.length with
    | some old =>
      if old ≠ data then throwFailed "cannot replace a committed checkpoint block" else pure ()
    | none =>
      let size := headerSize + 4 * data.length
      if w.memory.limits.blocks ≤ w.memory.blocks ∨
          w.memory.limits.totalBytes - w.memory.bytes < size then
        throwFailed "checkpoint disk limit exceeded"
      else do
        tryCatch
          (publish (blockName key) (header sha w.memory.identity key offset data)
            (data.flatMap toBytes))
          markUnhealthy
        modify fun w => { w with memory :=
          { w.memory with blocks := w.memory.blocks + 1, bytes := w.memory.bytes + size } }

/-! ### Owners -/

/-- A directory, the names renamed into place so far, and the open session, if any. -/
structure System where
  files : Files
  renamed : List FileName
  session : Option Impl

/-- The calls. A session is also closed by the death of its process between two calls. -/
inductive Call
  | openDirectory (mode : Mode) (identity : Bytes) (limits : Limits)
  | load (key : Bytes) (offset : UInt64) (count : ℕ)
  | save (key : Bytes) (offset : UInt64) (data : List UInt32)
  | close

inductive Reply
  | opened
  | loaded (data : Option (List UInt32))
  | saved
  | closed
  | stopped (stop : Stop)
deriving DecidableEq

def System.world {μ : Type} (s : System) (environment : FileSystem.Environment) (memory : μ) : World μ :=
  ⟨s.files, s.renamed, memory, environment, 0⟩

/-- The session after an operation that stopped: a crash ends it. -/
def Stop.session : Stop → Impl → Option Impl
  | .crashed, _ => none
  | .failed _, c => some c

/-- One call. Opening fails while another session holds the lock. -/
def perform (sha : Checksum) (environment : FileSystem.Environment) (call : Call) (s : System) :
    Reply × System :=
  match call, s.session with
  | .openDirectory mode identity limits, none =>
    match exec (openCheckpoint mode identity limits) (s.world environment ()) with
    | (.ok c, w) => (.opened, ⟨w.files, w.renamed, some c⟩)
    | (.error stop, w) => (.stopped stop, ⟨w.files, w.renamed, none⟩)
  | .openDirectory _ _ _, some _ =>
    (.stopped (.failed "checkpoint directory is already owned or lock is invalid"), s)
  | .load key offset count, some c =>
    match exec (load sha key offset count) (s.world environment c) with
    | (.ok data, w) => (.loaded data, ⟨w.files, w.renamed, some w.memory⟩)
    | (.error stop, w) => (.stopped stop, ⟨w.files, w.renamed, Stop.session stop w.memory⟩)
  | .save key offset data, some c =>
    match exec (save sha key offset data) (s.world environment c) with
    | (.ok _, w) => (.saved, ⟨w.files, w.renamed, some w.memory⟩)
    | (.error stop, w) => (.stopped stop, ⟨w.files, w.renamed, Stop.session stop w.memory⟩)
  | .load _ _ _, none => (.stopped (.failed "no checkpoint is open"), s)
  | .save _ _ _, none => (.stopped (.failed "no checkpoint is open"), s)
  | .close, _ => (.closed, { s with session := none })

/-- A sequence of calls with their replies, the latest first. -/
inductive Run (sha : Checksum) (start : System) : List (Call × Reply) → System → Prop
  | nil : Run sha start [] start
  | cons {history : List (Call × Reply)} {s : System} (h : Run sha start history s)
      (environment : FileSystem.Environment) (call : Call) :
      Run sha start ((call, (perform sha environment call s).1) :: history)
        (perform sha environment call s).2

end Resonantia.Io.BlockFiles
