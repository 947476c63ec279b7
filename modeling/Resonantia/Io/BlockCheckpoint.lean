import Resonantia.Io.RawSampleSpool
import Resonantia.Library.Triple
import Std.Data.ExtTreeMap

/-!
# Block checkpoints

A `BlockCheckpoint` owns a directory of immutable blocks of samples. A block is published by a
rename, so that after a crash it is there completely or not at all; `load` verifies the header and
the checksum before it returns the samples, and `save` never replaces a block. The owner calls
`boundary` at its safe points, where a pause request ends the operation.

The directory is a map from the key of a block to its contents. What the environment does is an
oracle (`Environment`): a boundary goes on, is paused, or is the last thing the process does, and a
publication is committed, fails (or the process dies) before the rename, or fails (or the process
dies) after the rename.

## Main definitions

* `Io.Block`, `Io.BlockDirectory`: the published blocks.
* `Io.BlockCheckpoint.resume`: opening the directory, with the counters recomputed by the scan.
* `Io.BlockCheckpoint.read`, `Io.BlockCheckpoint.accept`: the checks of `load` and `save`.
* `Io.CheckpointM`: operations that may stop, over an optional checkpoint session.
* `Io.boundary`, `Io.load`, `Io.save`: the operations of the owner.

## Main results

* `Io.BlockCheckpoint.eq_of_read`: what a successful read says about the directory.
* `Io.boundary_spec`, `Io.load_spec`, `Io.save_spec`: the effect of the operations on the cached
  samples.
-/

namespace Resonantia.Io

open Std Effect Slices Pipeline

/-- `header_size`. -/
def headerSize : ℕ := 160

/-- `BlockCheckpoint::Limits`. -/
structure Limits where
  blockBytes : ℕ := 32 * 1024 * 1024
  totalBytes : ℕ := 2 * 1024 * 1024 * 1024
  blocks : ℕ := 4096

/-- The checksum of a block: SHA-256 of identity, key, offset, length and payload. -/
class BlockDigest (α : Type) where
  digest : String → String → ℕ → List α → String

/-- A checksum of integer samples that forgets nothing. -/
instance : BlockDigest ℤ where
  digest identity key offset data :=
    identity ++ ":" ++ key ++ ":" ++ toString offset ++ ":" ++
      ",".intercalate (data.map toString)

/-- The contents of a block file: the header fields and the payload. -/
structure Block (α : Type) where
  identity : String
  offset : ℕ
  count : ℕ
  checksum : String
  reserved : ℕ
  data : List α

/-- The published blocks of a directory, by key. -/
abbrev BlockDirectory (α : Type) := ExtTreeMap String (Block α)

/-- `core::valid_digest`. -/
def validDigest (s : String) : Bool :=
  s.length == 64 && s.toList.all fun c => "0123456789abcdef".toList.contains c

/-- `valid_key`. -/
def validKey (key : String) : Bool :=
  !key.isEmpty && decide (key.length ≤ 64) &&
    key.toList.all fun c => "abcdefghijklmnopqrstuvwxyz0123456789_-".toList.contains c

/-- `BlockCheckpoint::Impl`. -/
structure BlockCheckpoint (α : Type) where
  identity : String
  limits : Limits
  directory : BlockDirectory α
  bytes : ℕ
  blocks : ℕ
  hits : ℕ
  healthy : Bool
  readOnly : Bool

namespace BlockCheckpoint

variable {α : Type}

/-- The size of a block file. -/
def blockSize (data : List α) : ℕ := headerSize + 4 * data.length

/-- Opening an existing directory with `Mode::Resume`: the scan checks the size of every block and
counts blocks and bytes against the limits. -/
def resume (identity : String) (limits : Limits) (directory : BlockDirectory α) :
    Except String (BlockCheckpoint α) :=
  if !validDigest identity || decide (limits.blockBytes < 4) ||
      decide (limits.blockBytes > 32 * 1024 * 1024) ||
      decide (limits.totalBytes < headerSize + 4) ||
      decide (limits.totalBytes > 2 * 1024 * 1024 * 1024) || limits.blocks == 0 ||
      decide (limits.blocks > 4096) then
    .error "invalid checkpoint identity or limits"
  else
    let sizes := directory.toList.map fun entry => blockSize entry.2.data
    if sizes.any fun size => decide (size < headerSize + 4 ∨ size > headerSize + limits.blockBytes)
    then .error "invalid checkpoint block entry"
    else if sizes.length > limits.blocks ∨ sizes.sum > limits.totalBytes then
      .error "checkpoint disk limit exceeded"
    else .ok
      { identity, limits, directory, bytes := sizes.sum, blocks := sizes.length, hits := 0
        healthy := true, readOnly := false }

theorem directory_of_resume {identity : String} {limits : Limits} {directory : BlockDirectory α}
    {c : BlockCheckpoint α} (h : resume identity limits directory = .ok c) :
    c.directory = directory ∧ c.identity = identity := by
  rw [resume] at h
  split at h
  · cases h
  · dsimp only at h
    split at h
    · cases h
    · split at h
      · cases h
      · cases h
        exact ⟨rfl, rfl⟩

variable [Sample α] [BlockDigest α]

/-- `BlockCheckpoint::Impl::read`. -/
def read (c : BlockCheckpoint α) (key : String) (offset count : ℕ) :
    Except String (Option (List α)) :=
  if !c.healthy then .error "checkpoint storage failed; reopen before further work"
  else if !validKey key then .error "invalid checkpoint key"
  else if count = 0 ∨ count > c.limits.blockBytes / 4 then .error "checkpoint count out of bounds"
  else match c.directory[key]? with
    | none => .ok none
    | some block =>
      if blockSize block.data ≠ headerSize + 4 * count then
        .error "checkpoint block size or type mismatch"
      else if block.identity ≠ c.identity ∨ block.offset ≠ offset ∨ block.count ≠ count ∨
          block.reserved ≠ 0 then
        .error "checkpoint block metadata mismatch"
      else if !block.data.all Sample.isFinite then .error "checkpoint contains non-finite data"
      else if block.checksum ≠ BlockDigest.digest c.identity key offset block.data then
        .error "checkpoint block checksum mismatch"
      else .ok (some block.data)

/-- What a successful read says about the directory. -/
theorem eq_of_read {c : BlockCheckpoint α} {key : String} {offset count : ℕ}
    {r : Option (List α)} (h : c.read key offset count = .ok r) :
    (c.directory[key]?).map Block.data = r := by
  rw [read] at h
  split at h
  · cases h
  split at h
  · cases h
  split at h
  · cases h
  split at h
  · rename_i hnone
    cases h
    simp only [hnone, Option.map_none]
  · rename_i block hblock
    split at h
    · cases h
    split at h
    · cases h
    split at h
    · cases h
    split at h
    · cases h
    cases h
    simp only [hblock, Option.map_some]

/-- The block file that `save` publishes. -/
def blockFile (c : BlockCheckpoint α) (key : String) (offset : ℕ) (data : List α) : Block α where
  identity := c.identity
  offset := offset
  count := data.length
  checksum := BlockDigest.digest c.identity key offset data
  reserved := 0
  data := data

/-- The checks of `BlockCheckpoint::save` before the publication: `some` is the block file still to
be published, `none` an identical block that is already there. -/
def accept [DecidableEq α] (c : BlockCheckpoint α) (key : String) (offset : ℕ) (data : List α) :
    Except String (Option (Block α)) :=
  if c.readOnly then .error "read-only checkpoint cannot save"
  else if !validKey key then .error "invalid checkpoint key"
  else if data.isEmpty || decide (data.length > c.limits.blockBytes / 4) then
    .error "checkpoint count out of bounds"
  else if !data.all Sample.isFinite then .error "checkpoint contains non-finite data"
  else match c.read key offset data.length with
    | .error e => .error e
    | .ok (some old) =>
      if old ≠ data then .error "cannot replace a committed checkpoint block" else .ok none
    | .ok none =>
      if c.blocks ≥ c.limits.blocks ∨ blockSize data > c.limits.totalBytes - c.bytes then
        .error "checkpoint disk limit exceeded"
      else .ok (some (c.blockFile key offset data))

/-- The directory after the rename of a publication. -/
def publish (c : BlockCheckpoint α) (key : String) (block : Block α) : BlockCheckpoint α :=
  { c with
    directory := c.directory.insert key block
    blocks := c.blocks + 1
    bytes := c.bytes + blockSize block.data }

omit [Sample α] [BlockDigest α] in
theorem directory_publish (c : BlockCheckpoint α) (key key' : String) (block : Block α) :
    (c.publish key block).directory[key']? =
      if key = key' then some block else c.directory[key']? := by
  rw [publish, ExtTreeMap.getElem?_insert]
  by_cases h : key = key'
  · rw [if_pos h, if_pos (by rw [h]; exact ReflCmp.compare_self)]
  · rw [if_neg h, if_neg fun hc => h (LawfulEqCmp.eq_of_compare hc)]

end BlockCheckpoint

/-! ### Sessions -/

/-- What happens at a boundary: the owner goes on, finds a pause request, or dies there. -/
inductive Signal
  | proceed
  | pause
  | crash
deriving DecidableEq

/-- What becomes of a publication: it is committed, it ends before the rename, or it ends after the
rename with the commit unconfirmed. -/
inductive Publication
  | committed
  | lost
  | unconfirmed
deriving DecidableEq

/-- The environment of one attempt, by the number of the operation it answers. -/
structure Environment where
  signal : ℕ → Signal
  publication : ℕ → Publication

/-- Why an operation does not return. -/
inductive Halt
  /-- An error: a `false` with its message, or an exception other than `OperationPaused`. -/
  | failed (message : String)
  /-- `OperationPaused`. -/
  | paused
  /-- The process died. -/
  | crashed
deriving DecidableEq

/-- An open checkpoint with its environment and the number of operations answered so far. -/
structure Session (α : Type) where
  checkpoint : BlockCheckpoint α
  environment : Environment
  ticks : ℕ

/-- Operations that may stop, over a checkpoint that may be absent (`io::BlockCheckpoint*`). -/
abbrev CheckpointM (α : Type) := ExceptT Halt (StateM (Option (Session α)))

namespace CheckpointM

variable {α β : Type}

/-- A computation without effects on the session. -/
def ofExcept (x : Except String β) : CheckpointM α β :=
  match x with
  | .ok b => pure b
  | .error message => throw (.failed message)

theorem exec_ofExcept_ok {x : Except String β} {b : β} {s t : Option (Session α)} :
    exec (ofExcept x : CheckpointM α β) s = (.ok b, t) ↔ x = .ok b ∧ t = s := by
  cases x with
  | error message => simp [ofExcept]
  | ok b' => simp [ofExcept, eq_comm]

end CheckpointM

/-! ### The operations of the owner -/

section Operations

variable {α : Type} [Sample α] [BlockDigest α] [DecidableEq α]

/-- `if (checkpoint) checkpoint->boundary();`. -/
def boundary : CheckpointM α Unit := fun s =>
  match s with
  | none => (.ok (), none)
  | some s =>
    let s' := some { s with ticks := s.ticks + 1 }
    if !s.checkpoint.healthy then
      (.error (.failed "checkpoint storage failed; reopen before further work"), s')
    else match s.environment.signal s.ticks with
      | .proceed => (.ok (), s')
      | .pause => (.error .paused, s')
      | .crash => (.error .crashed, s')

/-- `if (checkpoint) checkpoint->load(...)`; without a checkpoint nothing is cached. -/
def load (key : String) (offset count : ℕ) : CheckpointM α (Option (List α)) := fun s =>
  match s with
  | none => (.ok none, none)
  | some s =>
    match s.checkpoint.read key offset count with
    | .error message => (.error (.failed message), some s)
    | .ok none => (.ok none, some s)
    | .ok (some data) =>
      (.ok (some data),
        some { s with checkpoint := { s.checkpoint with hits := s.checkpoint.hits + 1 } })

/-- `if (checkpoint) checkpoint->save(...)`. A failed publication leaves the checkpoint unhealthy;
the block is there exactly when the rename happened. -/
def save (key : String) (offset : ℕ) (data : List α) : CheckpointM α Unit := fun s =>
  match s with
  | none => (.ok (), none)
  | some s =>
    match s.checkpoint.accept key offset data with
    | .error message => (.error (.failed message), some s)
    | .ok none => (.ok (), some s)
    | .ok (some block) =>
      let published := s.checkpoint.publish key block
      match s.environment.publication s.ticks with
      | .committed => (.ok (), some { s with checkpoint := published, ticks := s.ticks + 1 })
      | .lost =>
        (.error (.failed "checkpoint publication failed"),
          some { s with
            checkpoint := { s.checkpoint with healthy := false }, ticks := s.ticks + 1 })
      | .unconfirmed =>
        (.error (.failed "checkpoint publication directory sync failed"),
          some { s with checkpoint := { published with healthy := false }, ticks := s.ticks + 1 })

/-- The blocks that a session has published, `∅` without a checkpoint. -/
def published (s : Option (Session α)) : BlockDirectory α :=
  match s with
  | none => ∅
  | some s => s.checkpoint.directory

/-- The cached samples of a session, by key. -/
def cached (s : Option (Session α)) (key : String) : Option (List α) :=
  ((published s)[key]?).map Block.data

omit [Sample α] [BlockDigest α] [DecidableEq α] in
theorem cached_none (key : String) : cached (none : Option (Session α)) key = none := by
  simp [cached, published]

omit [Sample α] [BlockDigest α] [DecidableEq α] in
/-- A boundary changes no block: what holds of the cached samples holds of them afterwards. -/
theorem boundary_spec (P : (String → Option (List α)) → Prop) :
    Triple (fun s => P (cached s)) boundary (fun _ s => P (cached s)) (fun _ s => P (cached s)) := by
  rintro (_ | s) hs
  · exact hs
  · rw [exec, boundary]
    dsimp only
    split
    · rename_i h
      split at h
      · cases h
      · split at h <;> cases h
        exact hs
    · rename_i h
      split at h
      · cases h
        exact hs
      · split at h <;> cases h <;> exact hs

omit [DecidableEq α] in
/-- A load changes no block and returns the cached samples, if any. -/
theorem load_spec (key : String) (offset count : ℕ) (c : String → Option (List α)) :
    Triple (fun s => cached s = c) (load key offset count)
      (fun r s => (∀ data, r = some data → c key = some data) ∧ cached s = c)
      (fun _ s => cached s = c) := by
  rintro (_ | s) rfl
  · exact ⟨fun _ h => absurd h (by simp), rfl⟩
  · rw [exec, load]
    dsimp only
    rcases hread : s.checkpoint.read key offset count with message | _ | data
    · rfl
    · exact ⟨fun _ h => absurd h (by simp), rfl⟩
    · refine ⟨fun data' h => ?_, rfl⟩
      cases h
      exact BlockCheckpoint.eq_of_read hread

/-- A block file that `save` publishes holds the given samples. -/
theorem BlockCheckpoint.data_of_accept {c : BlockCheckpoint α} {key : String} {offset : ℕ}
    {data : List α} {block : Block α} (h : c.accept key offset data = .ok (some block)) :
    block.data = data := by
  rw [accept] at h
  split at h
  · cases h
  split at h
  · cases h
  split at h
  · cases h
  split at h
  · cases h
  split at h
  · cases h
  · split at h <;> cases h
  · split at h
    · cases h
    · cases h
      rfl

/-- A save adds at most the given samples under the given key, whether it returns or raises. -/
theorem save_spec (key : String) (offset : ℕ) (data : List α) (c : String → Option (List α)) :
    Triple (fun s => cached s = c) (save key offset data)
      (fun _ s => ∀ i v, cached s i = some v → c i = some v ∨ i = key ∧ v = data)
      (fun _ s => ∀ i v, cached s i = some v → c i = some v ∨ i = key ∧ v = data) := by
  rintro (_ | s) rfl
  · exact fun i v h => Or.inl h
  · rw [exec, save]
    dsimp only
    rcases haccept : s.checkpoint.accept key offset data with message | _ | block
    · exact fun i v h => Or.inl h
    · exact fun i v h => Or.inl h
    · have hpublish : ∀ i v, (((s.checkpoint.publish key block).directory[i]?).map Block.data) =
          some v → cached (some s) i = some v ∨ i = key ∧ v = data := by
        intro i v h
        rw [BlockCheckpoint.directory_publish] at h
        split at h
        · rename_i hkey
          right
          refine ⟨hkey.symm, ?_⟩
          rw [Option.map_some, BlockCheckpoint.data_of_accept haccept] at h
          exact (Option.some.inj h).symm
        · exact Or.inl h
      cases s.environment.publication s.ticks
      · exact hpublish
      · exact fun i v h => Or.inl h
      · exact hpublish

end Operations

end Resonantia.Io
