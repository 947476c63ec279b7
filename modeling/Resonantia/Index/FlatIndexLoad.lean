import Resonantia.Index.FlatIndexFile
import Resonantia.Io.WavWriter

/-!
# Loading a flat index

`CudaFlatIndex::load` maps a private snapshot of the file, which it clones or copies. Others may
write to the file in the meantime; the identity of the file before and after shows it. Transfers may
move fewer bytes than they were asked for.

## Main definitions

* `Index.load`: the loader.
* `Index.IsIndexFile`: the contents that it accepts.
* `Index.reconstruct`: a row of the index.

## Main results

* `Index.load_spec`: what an index that was loaded holds, and why a file is not loaded.
-/

namespace Resonantia.Index

open ByteString Effect FloatWord Slices
open Io.WavWriter (writeAt)
open Io (offMax)
open Pipeline (checkedAdd checkedMul checkedAdd_of_lt checkedMul_of_lt eq_add_of_checkedAdd
  eq_mul_of_checkedMul u64 u64_of_lt)

/-! ### The file -/

structure FileIdentity where
  device : ℕ
  inode : ℕ
  size : ℕ
  modified : ℤ × ℤ
  changed : ℤ × ℤ
deriving DecidableEq

/-- A file at some moment. -/
structure Source where
  content : Bytes
  isRegular : Bool
  device : ℕ
  inode : ℕ
  modified : ℤ × ℤ
  changed : ℤ × ℤ

/-- `identity_from_stat`. -/
def Source.identity (file : Source) : Option FileIdentity :=
  if file.isRegular = false then none
  else some ⟨file.device, file.inode, file.content.length, file.modified, file.changed⟩

/-- The files and the results of the calls by the number of the call. -/
structure LoadEnvironment where
  /-- The file that was opened. -/
  source : ℕ → Source
  /-- The file that has the path now. -/
  atPath : ℕ → Source
  succeeds : ℕ → Bool
  /-- Whether the file system clones the file. -/
  clones : ℕ → Bool
  /-- The number of bytes that a transfer may move; `none` is an error. -/
  transfer : ℕ → Option ℕ

/-- The private snapshot of a loader. -/
structure LoadWorld where
  snapshot : Bytes
  environment : LoadEnvironment
  ticks : ℕ

/-- Operations that may return `false`. -/
abbrev LoadM := ExceptT Unit (StateM LoadWorld)

/-- The next result of the environment. -/
def ask {β : Type} (answer : LoadEnvironment → ℕ → β) : LoadM β := do
  let w ← get
  modify fun w => { w with ticks := w.ticks + 1 }
  pure (answer w.environment w.ticks)

/-- A call that has to succeed; this includes the allocation of memory. -/
def demand : LoadM Unit := do
  if ← ask LoadEnvironment.succeeds then pure () else throw ()

/-- `fstat` of the source. -/
def statSource : LoadM Source := do
  demand
  ask LoadEnvironment.source

/-- `stat` of the path. -/
def statPath : LoadM Source := do
  demand
  ask LoadEnvironment.atPath

/-! ### Transfers -/

inductive File
  | source
  | snapshot

/-- The content of a file at the moment of a call. -/
def LoadWorld.content (w : LoadWorld) : File → Bytes
  | .source => (w.environment.source w.ticks).content
  | .snapshot => w.snapshot

/-- The loop of `read_header` and `read_exact_at`. -/
def preadLoop (file : File) : ℕ → ℕ → ℕ → Bytes → LoadM Bytes
  | 0, _, _, output => pure output
  | turns + 1, remaining, offset, output =>
    if remaining = 0 then pure output
    else do
      let w ← get
      match ← ask LoadEnvironment.transfer with
      | none => throw ()
      | some moved =>
        let count := min moved (min remaining ((w.content file).length - offset))
        if count = 0 then throw ()
        else
          preadLoop file turns (remaining - count) (offset + count)
            (output ++ slice (w.content file) offset (offset + count))

/-- The checks of `read_exact_at` and `write_exact_at`. -/
def rangeFits (byteCount byteOffset : ℕ) : Bool :=
  byteOffset ≤ offMax && byteCount ≤ offMax - byteOffset

/-- `read_exact_at`. -/
def readExactAt (file : File) (byteCount byteOffset : ℕ) : LoadM Bytes :=
  if byteCount = 0 then pure []
  else if rangeFits byteCount byteOffset = false then throw ()
  else preadLoop file byteCount byteCount byteOffset []

/-- The loop of `write_exact_at`. -/
def pwriteLoop : ℕ → Bytes → ℕ → LoadM Unit
  | 0, _, _ => pure ()
  | turns + 1, input, offset =>
    if input = [] then pure ()
    else do
      match ← ask LoadEnvironment.transfer with
      | none => throw ()
      | some moved =>
        let count := min moved input.length
        if count = 0 then throw ()
        else
          modify fun w => { w with snapshot := writeAt w.snapshot (input.take count) offset }
          pwriteLoop turns (input.drop count) (offset + count)

/-- `write_exact_at` of the snapshot. -/
def writeExactAt (input : Bytes) (byteOffset : ℕ) : LoadM Unit :=
  if input = [] then pure ()
  else if rangeFits input.length byteOffset = false then throw ()
  else pwriteLoop input.length input byteOffset

def kReadChunkBytes : ℕ := 2 ^ 20

/-- The loops of `clone_or_copy_source` and `same_file_contents` over the chunks of a file. -/
def overChunks (byteCount : ℕ) (step : ℕ → ℕ → LoadM Unit) : ℕ → ℕ → LoadM Unit
  | 0, _ => pure ()
  | turns + 1, offset =>
    if offset < byteCount then do
      let count := min (min byteCount kReadChunkBytes) (byteCount - offset)
      step offset count
      overChunks byteCount step turns (offset + count)
    else pure ()

/-! ### The loader -/

/-- The clone of `clone_or_copy_source`, which the file system may refuse. -/
def cloneSource (byteCount : ℕ) : LoadM Bool := do
  let w ← get
  if ← ask LoadEnvironment.clones then
    modify fun w' => { w' with snapshot := w.content .source }
    if ← ask LoadEnvironment.succeeds then pure (decide ((w.content .source).length = byteCount))
    else pure false
  else pure false

/-- The copy of `clone_or_copy_source`. -/
def copySource (byteCount : ℕ) : LoadM Unit := do
  demand
  demand
  modify fun w => { w with snapshot := List.replicate byteCount 0 }
  demand
  overChunks byteCount
    (fun offset count => do writeExactAt (← readExactAt .source count offset) offset) byteCount 0

/-- `same_file_contents`. -/
def sameFileContents (byteCount : ℕ) : LoadM Unit := do
  demand
  overChunks byteCount
    (fun offset count => do
      let left ← readExactAt .source count offset
      let right ← readExactAt .snapshot count offset
      if left = right then pure () else throw ())
    byteCount 0

/-- `read_u64_le`. -/
def readU64Le (content : Bytes) (position : ℕ) : ℕ := ofLittleEndian ((content.drop position).take 8)

/-- The vectors, their dimension and the size of the file that a header tells. -/
def readShape (header : Bytes) : Option (ℕ × ℕ × ℕ) :=
  let ntotal := readU64Le header 0
  let dim := readU64Le header 8
  if ntotal = 0 ∨ 2 ^ 63 - 1 < ntotal ∨ dim = 0 ∨ 2 ^ 31 - 1 < dim ∨ 2 ^ 64 - 1 < ntotal then none
  else do
    let elementCount ← checkedMul ntotal dim
    let dataSize ← checkedMul elementCount 4
    let expectedSize ← checkedAdd kHeaderSize dataSize
    some (ntotal, dim, expectedSize)

/-- The `float` at a position of the map. -/
def wordAt (content : Bytes) (position : ℕ) : UInt32 :=
  (ofLittleEndian ((content.drop position).take 4)).toUInt32

/-- The index over a map of the snapshot. -/
def mapped (snapshot : Bytes) (ntotal dim : ℕ) : CudaFlatIndex UInt32 where
  data := (List.range (ntotal * dim)).map fun i => wordAt snapshot (kHeaderSize + 4 * i)
  ntotal
  dim
  length_data := by rw [List.length_map, List.length_range]

/-- `load` up to the moment where the snapshot is there; the identity is the one seen first. -/
def takeSnapshot : LoadM (FileIdentity × ℕ × ℕ) := do
  demand
  match (← statSource).identity with
  | none => throw ()
  | some identity =>
    if identity.size < kHeaderSize ∨ 2 ^ 64 - 1 < identity.size then throw ()
    else
      match readShape (← preadLoop .source kHeaderSize kHeaderSize 0 []) with
      | none => throw ()
      | some (ntotal, dim, expectedSize) =>
        if expectedSize ≠ identity.size then throw ()
        else
          demand
          modify fun w => { w with snapshot := [] }
          if ← cloneSource expectedSize then pure (identity, ntotal, dim)
          else
            copySource expectedSize
            sameFileContents expectedSize
            pure (identity, ntotal, dim)

/-- `load`: an operation that fails leaves an index that is not loaded. -/
def load : LoadM (CudaFlatIndex UInt32) := do
  let (identity, ntotal, dim) ← takeSnapshot
  let descriptor ← statSource
  let path ← statPath
  if descriptor.identity ≠ some identity ∨ path.identity ≠ some identity then throw ()
  else
    demand
    let w ← get
    if (mapped w.snapshot ntotal dim).data.all isFinite = false then throw ()
    else pure (mapped w.snapshot ntotal dim)

/-- `reconstruct`; the result is empty also if there is no memory for it. -/
def reconstruct {F : Type} (allocates : Bool) (index : CudaFlatIndex F) (idx dim : ℤ) : List F :=
  if index.valid = false ∨ idx < 0 ∨ index.ntotal ≤ idx ∨ dim ≤ 0 ∨ dim ≠ index.dim ∨
      allocates = false then []
  else
    let offset := u64 (idx.toNat * index.dim)
    slice index.data offset (offset + index.dim)

/-! ### The contents that are accepted -/

/-- The size is exactly what the header tells, no product overflows, and all values are finite. -/
structure IsIndexFile (content : Bytes) (ntotal dim : ℕ) : Prop where
  header_ntotal : readU64Le content 0 = ntotal
  header_dim : readU64Le content 8 = dim
  ntotal_pos : 0 < ntotal
  ntotal_le : ntotal ≤ 2 ^ 63 - 1
  dim_pos : 0 < dim
  dim_le : dim ≤ 2 ^ 31 - 1
  size_lt : 16 + 4 * (ntotal * dim) < 2 ^ 64
  length : content.length = 16 + 4 * (ntotal * dim)
  finite : ∀ x ∈ ofBytes (content.drop 16), isFinite x = true

theorem lt_of_checkedAdd {a b c : ℕ} (ha : a < 2 ^ 64) (h : checkedAdd a b = some c) : c < 2 ^ 64 := by
  rw [checkedAdd] at h
  split_ifs at h with hmax
  rw [Pipeline.uint64Max] at hmax
  have hc := Option.some.inj h
  omega

/-- What the header tells is in range, and so is the size of the file. -/
theorem readShape_eq_some_iff {header : Bytes} {ntotal dim size : ℕ} :
    readShape header = some (ntotal, dim, size) ↔
      (readU64Le header 0 = ntotal ∧ readU64Le header 8 = dim) ∧
        (0 < ntotal ∧ ntotal ≤ 2 ^ 63 - 1 ∧ 0 < dim ∧ dim ≤ 2 ^ 31 - 1) ∧
          size = 16 + 4 * (ntotal * dim) ∧ 16 + 4 * (ntotal * dim) < 2 ^ 64 := by
  rw [readShape]
  generalize readU64Le header 0 = n
  generalize readU64Le header 8 = d
  constructor
  · intro h
    split_ifs at h with hrange
    obtain ⟨count, hcount, h⟩ := Option.bind_eq_some_iff.1 h
    obtain ⟨bytes, hbytes, h⟩ := Option.bind_eq_some_iff.1 h
    obtain ⟨expected, hexpected, h⟩ := Option.bind_eq_some_iff.1 h
    obtain ⟨rfl, hpair⟩ := Prod.mk.inj (Option.some.inj h)
    obtain ⟨rfl, rfl⟩ := Prod.mk.inj hpair
    have hlt := lt_of_checkedAdd (by decide) hexpected
    obtain rfl := eq_mul_of_checkedMul hcount
    obtain rfl := eq_mul_of_checkedMul hbytes
    obtain rfl := eq_add_of_checkedAdd hexpected
    refine ⟨⟨rfl, rfl⟩, by omega, ?_, ?_⟩
    · rw [kHeaderSize, Nat.mul_comm 4]
    · rwa [kHeaderSize, Nat.mul_comm _ 4] at hlt
  · rintro ⟨⟨rfl, rfl⟩, ⟨hn, hn', hd, hd'⟩, rfl, hlt⟩
    rw [if_neg (by omega), checkedMul_of_lt (by omega), Option.bind_eq_bind, Option.bind_some,
      checkedMul_of_lt (by omega), Option.bind_some, Nat.mul_comm _ 4, kHeaderSize,
      checkedAdd_of_lt hlt, Option.bind_some]

/-- The map of a file of the right size. -/
theorem ofBytes_eq_map {content : Bytes} {count : ℕ} (h : content.length = 4 * count) :
    ofBytes content = (List.range count).map fun i => wordAt content (4 * i) := by
  induction count generalizing content with
  | zero =>
    obtain rfl := List.length_eq_zero_iff.1 h
    rfl
  | succ count ih =>
    match content, h with
    | a :: b :: c :: d :: rest, h =>
      rw [ofBytes, ih (by simp only [List.length_cons] at h; omega), List.range_succ_eq_map,
        List.map_cons, List.map_map]
      rfl

theorem mapped_data {content : Bytes} {ntotal dim : ℕ}
    (h : content.length = 16 + 4 * (ntotal * dim)) :
    (mapped content ntotal dim).data = ofBytes (content.drop 16) := by
  rw [ofBytes_eq_map (by rw [List.length_drop, h, Nat.add_sub_cancel_left])]
  refine List.map_congr_left fun i _ => ?_
  rw [wordAt, wordAt, List.drop_drop]
  rfl

/-! ### What is known of a file that others may change -/

/-- The file that was opened had this content between two moments. -/
def LoadEnvironment.Held (e : LoadEnvironment) (start stop : ℕ) (content : Bytes) : Prop :=
  ∀ i, start ≤ i → i < stop → (e.source i).content = content

/-- Nobody changes the file, no call fails, and every transfer moves something. Whether the file
system clones the file is left open. -/
structure LoadEnvironment.Steady (e : LoadEnvironment) (file : Source) : Prop where
  source : ∀ i, e.source i = file
  atPath : ∀ i, e.atPath i = file
  isRegular : file.isRegular = true
  succeeds : ∀ i, e.succeeds i = true
  transfer : ∀ i, ∃ moved, e.transfer i = some (moved + 1)

/-- What is known of the content and the snapshot as long as the content is held. -/
structure Known (e : LoadEnvironment) (start : ℕ) (F : Bytes → Bytes → Prop) (w : LoadWorld) :
    Prop where
  environment : w.environment = e
  start_le : start ≤ w.ticks
  known : ∀ content, e.Held start w.ticks content → F content w.snapshot

section Spec

variable {e : LoadEnvironment} {start : ℕ} {F G : Bytes → Bytes → Prop} {β γ : Type}
  {E : Unit → LoadWorld → Prop}

theorem LoadEnvironment.Held.mono {stop stop' : ℕ} {content : Bytes} (h : e.Held start stop' content)
    (hle : stop ≤ stop') : e.Held start stop content :=
  fun i hstart hi => h i hstart (Nat.lt_of_lt_of_le hi hle)

theorem LoadEnvironment.Steady.held {file : Source} (h : e.Steady file) (start stop : ℕ) :
    e.Held start stop file.content := fun i _ _ => congrArg Source.content (h.source i)

def LoadWorld.next (w : LoadWorld) : LoadWorld := { w with ticks := w.ticks + 1 }

theorem Known.next {w : LoadWorld} (h : Known e start F w) : Known e start F w.next :=
  ⟨h.environment, Nat.le_succ_of_le h.start_le,
    fun content hheld => h.known content (hheld.mono (Nat.le_succ _))⟩

theorem Known.imp {w : LoadWorld} (h : Known e start F w)
    (himp : ∀ content snapshot, F content snapshot → G content snapshot) : Known e start G w :=
  ⟨h.environment, h.start_le, fun content hheld => himp _ _ (h.known content hheld)⟩

/-- Known facts hold of the content of a file that nobody changes. -/
theorem Known.of_steady {w : LoadWorld} (h : Known e start F w) {file : Source}
    (hsteady : e.Steady file) : F file.content w.snapshot := h.known _ (hsteady.held _ _)

theorem triple_ask_bind {P : LoadWorld → Prop} {Q : γ → LoadWorld → Prop}
    {answer : LoadEnvironment → ℕ → β} {f : β → LoadM γ}
    (h : ∀ w, P w → Triple (· = w.next) (f (answer w.environment w.ticks)) Q E) :
    Triple P (ask answer >>= f) Q E := fun w hw => h w hw w.next rfl

/-- A call fails only where nothing is steady. -/
theorem demand_spec {C : Prop} :
    Triple (Known e start F) demand (fun _ => Known e start F)
      (fun _ _ => ¬∃ file, e.Steady file ∧ C) := by
  refine triple_ask_bind fun w hw => ?_
  cases hsucceeds : w.environment.succeeds w.ticks with
  | false =>
    refine triple_throw ?_
    rintro _ - ⟨file, hsteady, -⟩
    rw [hw.environment, hsteady.succeeds] at hsucceeds
    cases hsucceeds
  | true =>
    refine triple_pure ?_
    rintro _ rfl
    exact hw.next

/-- What a file that is read holds. -/
def heldContent (file : File) (content snapshot : Bytes) : Bytes :=
  match file with
  | .source => content
  | .snapshot => snapshot

/-- The turns of a read add up to the range. -/
theorem preadLoop_spec {file : File} {turns remaining first offset : ℕ} {output : Bytes}
    (hturns : remaining ≤ turns) (hfirst : first ≤ offset) :
    Triple (Known e start fun content snapshot => F content snapshot ∧
        output = slice (heldContent file content snapshot) first offset)
      (preadLoop file turns remaining offset output)
      (fun data => Known e start fun content snapshot => F content snapshot ∧
        data = slice (heldContent file content snapshot) first (offset + remaining))
      (fun _ _ => ¬∃ f, e.Steady f ∧ ∀ snapshot, F f.content snapshot →
        offset + remaining ≤ (heldContent file f.content snapshot).length) := by
  induction turns generalizing remaining offset output with
  | zero =>
    obtain rfl := Nat.le_zero.1 hturns
    exact triple_pure fun w hw => hw
  | succ turns ih =>
    rw [preadLoop]
    by_cases hzero : remaining = 0
    · rw [if_pos hzero, hzero]
      exact triple_pure fun w hw => hw
    rw [if_neg hzero]
    refine triple_get_bind fun w hw₀ => triple_ask_bind ?_
    rintro w₀ rfl
    have hcontent : ∀ content, e.Held start (w₀.ticks + 1) content →
        w₀.content file = heldContent file content w₀.snapshot := by
      intro content hheld
      cases file with
      | source =>
        rw [LoadWorld.content, hw₀.environment]
        exact hheld w₀.ticks hw₀.start_le (Nat.lt_succ_self _)
      | snapshot => rfl
    cases htransfer : w₀.environment.transfer w₀.ticks with
    | none =>
      refine triple_throw ?_
      rintro _ - ⟨f, hsteady, -⟩
      obtain ⟨moved, hmoved⟩ := hsteady.transfer w₀.ticks
      rw [hw₀.environment, hmoved] at htransfer
      cases htransfer
    | some moved =>
      dsimp only
      by_cases hcount :
          min moved (min remaining ((w₀.content file).length - offset)) = 0
      · rw [if_pos hcount]
        refine triple_throw ?_
        rintro _ - ⟨f, hsteady, hlength⟩
        have hle := hlength _ (hw₀.of_steady hsteady).1
        rw [← hcontent _ (hsteady.held _ _)] at hle
        obtain ⟨moved', hmoved⟩ := hsteady.transfer w₀.ticks
        rw [hw₀.environment, hmoved] at htransfer
        have := Option.some.inj htransfer
        omega
      · rw [if_neg hcount]
        have hle : min moved (min remaining ((w₀.content file).length - offset)) ≤ remaining := by
          omega
        generalize min moved (min remaining ((w₀.content file).length - offset)) = count
          at hcount hle ⊢
        have hrest := @ih (remaining - count) (offset + count)
          (output ++ slice (w₀.content file) offset (offset + count)) (by omega) (by omega)
        rw [Nat.add_assoc, Nat.add_sub_cancel' hle] at hrest
        refine triple_pre hrest ?_
        rintro _ rfl
        refine ⟨hw₀.environment, Nat.le_succ_of_le hw₀.start_le, fun content hheld => ?_⟩
        obtain ⟨hF, houtput⟩ := hw₀.known content (hheld.mono (Nat.le_succ _))
        refine ⟨hF, ?_⟩
        rw [houtput, hcontent content hheld]
        exact slice_append_slice _ hfirst (Nat.le_add_right _ _)

/-! ### What the operations of the loader do -/

/-- What is wrong when the loader fails: the file is changed, a call fails, or it is no index. -/
def Unloadable (e : LoadEnvironment) : Prop :=
  ¬∃ file, e.Steady file ∧ file.content.length ≤ offMax ∧
    ∃ ntotal dim, IsIndexFile file.content ntotal dim

theorem demand_known :
    Triple (Known e start F) demand (fun _ => Known e start F) (fun _ _ => Unloadable e) := by
  refine triple_raise (demand_spec (C := True)) fun _ _ hnone => ?_
  rintro ⟨file, hsteady, -⟩
  exact hnone ⟨file, hsteady, trivial⟩

theorem triple_ask {P : LoadWorld → Prop} {Q : β → LoadWorld → Prop}
    {answer : LoadEnvironment → ℕ → β} (h : ∀ w, P w → Q (answer w.environment w.ticks) w.next) :
    Triple P (ask answer) Q E := fun w hw => h w hw

theorem triple_modify_bind {P : LoadWorld → Prop} {Q : γ → LoadWorld → Prop}
    {change : LoadWorld → LoadWorld} {f : Unit → LoadM γ}
    (h : ∀ w, P w → Triple (· = change w) (f ()) Q E) : Triple P (modify change >>= f) Q E :=
  fun w hw => h w hw (change w) rfl

theorem statSource_spec :
    Triple (Known e start F) statSource
      (fun file w => (∀ f, e.Steady f → file = f) ∧
        Known e start (fun content snapshot => F content snapshot ∧ file.content = content) w)
      (fun _ _ => Unloadable e) := by
  refine triple_bind demand_known fun _ => triple_ask fun w hw => ?_
  rw [hw.environment]
  refine ⟨fun f hsteady => hsteady.source _, hw.environment, Nat.le_succ_of_le hw.start_le,
    fun content hheld => ⟨hw.known content (hheld.mono (Nat.le_succ _)), ?_⟩⟩
  exact hheld w.ticks hw.start_le (Nat.lt_succ_self _)

theorem statPath_spec :
    Triple (Known e start F) statPath
      (fun file w => (∀ f, e.Steady f → file = f) ∧ Known e start F w)
      (fun _ _ => Unloadable e) := by
  refine triple_bind demand_known fun _ => triple_ask fun w hw => ?_
  rw [hw.environment]
  exact ⟨fun f hsteady => hsteady.atPath _, hw.next⟩

/-- An exact read returns the range, or the range does not lie in the file. -/
theorem readExactAt_spec {file : File} {byteCount byteOffset : ℕ} :
    Triple (Known e start F) (readExactAt file byteCount byteOffset)
      (fun data => Known e start fun content snapshot => F content snapshot ∧
        data = slice (heldContent file content snapshot) byteOffset (byteOffset + byteCount))
      (fun _ _ => ¬∃ f, e.Steady f ∧ ∀ snapshot, F f.content snapshot →
        byteOffset + byteCount ≤ offMax ∧
          byteOffset + byteCount ≤ (heldContent file f.content snapshot).length) := by
  rw [readExactAt]
  by_cases hzero : byteCount = 0
  · rw [if_pos hzero, hzero, Nat.add_zero]
    exact triple_pure fun w hw => hw.imp fun content snapshot h => ⟨h, (slice_self _ _).symm⟩
  rw [if_neg hzero]
  by_cases hfits : rangeFits byteCount byteOffset = false
  · rw [if_pos hfits]
    refine triple_throw fun w hw => ?_
    rintro ⟨f, hsteady, hrange⟩
    have hle := (hrange _ (hw.of_steady hsteady)).1
    have hfits' : rangeFits byteCount byteOffset = true := by
      rw [rangeFits, Bool.and_eq_true, decide_eq_true_eq, decide_eq_true_eq]
      omega
    exact Bool.false_ne_true (hfits.symm.trans hfits')
  · rw [if_neg hfits]
    refine triple_conseq (preadLoop_spec le_rfl le_rfl)
      (fun w hw => hw.imp fun content snapshot h => ⟨h, (slice_self _ _).symm⟩)
      (fun _ _ h => h) fun _ w hnone => ?_
    rintro ⟨f, hsteady, hrange⟩
    exact hnone ⟨f, hsteady, fun snapshot hF => (hrange snapshot hF).2⟩

/-! ### The copy -/

/-- The snapshot holds the content up to an offset. -/
def Copied (offset : ℕ) (content snapshot : Bytes) : Prop :=
  snapshot = content.take offset ++ List.replicate (content.length - offset) 0

theorem Copied.writeAt {content snapshot : Bytes} {offset count : ℕ}
    (h : Copied offset content snapshot) (hle : offset + count ≤ content.length) :
    Copied (offset + count) content
      (writeAt snapshot (slice content offset (offset + count)) offset) := by
  have htake : (content.take offset).length = offset := by
    rw [List.length_take]
    omega
  have hslice : (slice content offset (offset + count)).length = count := by
    rw [length_slice hle, Nat.add_sub_cancel_left]
  have hlength : snapshot.length = content.length := by
    rw [h, List.length_append, htake, List.length_replicate]
    omega
  have hjoin : content.take offset ++ slice content offset (offset + count) =
      content.take (offset + count) :=
    slice_append_slice content (Nat.zero_le offset) (Nat.le_add_right _ _)
  have hrest : snapshot.drop (offset + count) =
      List.replicate (content.length - (offset + count)) 0 := by
    rw [h, List.drop_append, List.drop_eq_nil_of_le (by omega), htake, List.nil_append,
      List.drop_replicate]
    congr 1
    omega
  have hfirst : snapshot.take offset = content.take offset := by
    rw [h, List.take_left' htake]
  rw [Copied, Io.WavWriter.writeAt, hslice, hrest, hfirst, hlength,
    Nat.sub_eq_zero_of_le (by omega), List.replicate_zero, List.append_nil, hjoin]

section Copy

variable {H : Bytes → Prop} {size : ℕ}

/-- Nothing is left to be written. -/
theorem Known.of_nothing_left (hsize : ∀ content, H content → content.length = size)
    {offset stop : ℕ} (hstop : stop ≤ size) {w : LoadWorld}
    (hw : Known e start (fun content snapshot => (H content ∧ Copied offset content snapshot) ∧
      offset ≤ stop ∧ [] = slice content offset stop) w) :
    Known e start (fun content snapshot => H content ∧ Copied stop content snapshot) w := by
  refine hw.imp fun content snapshot ⟨⟨hH, hcopied⟩, hle, hnil⟩ => ⟨hH, ?_⟩
  have hzero := congrArg List.length hnil
  rw [List.length_nil, length_slice (by rw [hsize _ hH]; exact hstop)] at hzero
  obtain rfl : offset = stop := by omega
  exact hcopied

/-- The turns of a write add up. -/
theorem pwriteLoop_spec (hsize : ∀ content, H content → content.length = size) {turns : ℕ}
    {input : Bytes} {offset stop : ℕ} (hturns : input.length ≤ turns) (hstop : stop ≤ size) :
    Triple (Known e start fun content snapshot => (H content ∧ Copied offset content snapshot) ∧
        offset ≤ stop ∧ input = slice content offset stop)
      (pwriteLoop turns input offset)
      (fun _ => Known e start fun content snapshot => H content ∧ Copied stop content snapshot)
      (fun _ _ => Unloadable e) := by
  have hlength : ∀ {content} offset, H content →
      (slice content offset stop).length = stop - offset :=
    fun _ hH => length_slice (by rw [hsize _ hH]; exact hstop)
  induction turns generalizing input offset with
  | zero =>
    obtain rfl := List.length_eq_zero_iff.1 (Nat.le_zero.1 hturns)
    exact triple_pure fun w hw => hw.of_nothing_left hsize hstop
  | succ turns ih =>
    rw [pwriteLoop]
    by_cases hnil : input = []
    · rw [if_pos hnil, hnil]
      exact triple_pure fun w hw => hw.of_nothing_left hsize hstop
    rw [if_neg hnil]
    have hpos := List.length_pos_iff.2 hnil
    refine triple_ask_bind fun w₀ hw₀ => ?_
    cases htransfer : w₀.environment.transfer w₀.ticks with
    | none =>
      refine triple_throw ?_
      rintro _ - ⟨f, hsteady, -⟩
      obtain ⟨moved, hmoved⟩ := hsteady.transfer w₀.ticks
      rw [hw₀.environment, hmoved] at htransfer
      cases htransfer
    | some moved =>
      dsimp only
      by_cases hcount : min moved input.length = 0
      · rw [if_pos hcount]
        refine triple_throw ?_
        rintro _ - ⟨f, hsteady, -⟩
        obtain ⟨moved', hmoved⟩ := hsteady.transfer w₀.ticks
        rw [hw₀.environment, hmoved] at htransfer
        have := Option.some.inj htransfer
        omega
      · rw [if_neg hcount]
        have hle : min moved input.length ≤ input.length := Nat.min_le_right _ _
        generalize min moved input.length = count at hcount hle ⊢
        refine triple_modify_bind ?_
        rintro w rfl
        refine triple_pre (@ih (input.drop count) (offset + count) (by
          rw [List.length_drop]
          omega)) ?_
        rintro _ rfl
        refine ⟨hw₀.environment, Nat.le_succ_of_le hw₀.start_le, fun content hheld => ?_⟩
        obtain ⟨⟨hH, hcopied⟩, hoffset, hinput⟩ :=
          hw₀.known content (hheld.mono (Nat.le_succ _))
        have hcount' := hlength offset hH
        rw [← hinput] at hcount'
        have hsplit := slice_append_slice content (Nat.le_add_right offset count)
          (show offset + count ≤ stop by omega)
        have hpart : (slice content offset (offset + count)).length = count := by
          rw [length_slice (by rw [hsize _ hH]; omega), Nat.add_sub_cancel_left]
        have htake : input.take count = slice content offset (offset + count) := by
          rw [hinput, ← hsplit, List.take_left' hpart]
        have hdrop : input.drop count = slice content (offset + count) stop := by
          rw [hinput, ← hsplit, List.drop_left' hpart]
        refine ⟨⟨hH, ?_⟩, by omega, hdrop⟩
        dsimp only
        rw [htake]
        exact hcopied.writeAt (by rw [hsize _ hH]; omega)

/-- An exact write of the next part. -/
theorem writeExactAt_spec (hsize : ∀ content, H content → content.length = size) {input : Bytes}
    {offset stop : ℕ} (hstop : stop ≤ size) :
    Triple (Known e start fun content snapshot => (H content ∧ Copied offset content snapshot) ∧
        offset ≤ stop ∧ input = slice content offset stop)
      (writeExactAt input offset)
      (fun _ => Known e start fun content snapshot => H content ∧ Copied stop content snapshot)
      (fun _ _ => Unloadable e) := by
  rw [writeExactAt]
  by_cases hnil : input = []
  · rw [if_pos hnil, hnil]
    exact triple_pure fun w hw => hw.of_nothing_left hsize hstop
  rw [if_neg hnil]
  by_cases hfits : rangeFits input.length offset = false
  · rw [if_pos hfits]
    refine triple_throw fun w hw => ?_
    rintro ⟨f, hsteady, hmax, -⟩
    obtain ⟨⟨hH, -⟩, hoffset, hinput⟩ := hw.of_steady hsteady
    have hlength : input.length = stop - offset := by
      rw [hinput, length_slice (by rw [hsize _ hH]; exact hstop)]
    have hcontent := hsize _ hH
    have hfits' : rangeFits input.length offset = true := by
      rw [rangeFits, Bool.and_eq_true, decide_eq_true_eq, decide_eq_true_eq]
      omega
    exact Bool.false_ne_true (hfits.symm.trans hfits')
  · rw [if_neg hfits]
    exact pwriteLoop_spec hsize le_rfl hstop

/-- A loop over the chunks keeps what each chunk keeps. -/
theorem overChunks_spec {I : ℕ → Bytes → Bytes → Prop} {step : ℕ → ℕ → LoadM Unit}
    (hstep : ∀ offset count, offset + count ≤ size → Triple (Known e start (I offset))
      (step offset count) (fun _ => Known e start (I (offset + count))) fun _ _ => Unloadable e)
    {turns offset : ℕ} (hoffset : offset ≤ size) (hturns : size - offset ≤ turns) :
    Triple (Known e start (I offset)) (overChunks size step turns offset)
      (fun _ => Known e start (I size)) (fun _ _ => Unloadable e) := by
  induction turns generalizing offset with
  | zero =>
    obtain rfl : offset = size := by omega
    exact triple_pure fun w hw => hw
  | succ turns ih =>
    rw [overChunks]
    by_cases hlt : offset < size
    · rw [if_pos hlt]
      have hchunk : 0 < kReadChunkBytes := by decide
      exact triple_bind (hstep offset _ (by omega)) fun _ => ih (by omega) (by omega)
    · rw [if_neg hlt]
      obtain rfl : offset = size := by omega
      exact triple_pure fun w hw => hw

/-- The copy of the file. -/
theorem copySource_spec (hsize : ∀ content, H content → content.length = size) :
    Triple (Known e start fun content _ => H content) (copySource size)
      (fun _ => Known e start fun content snapshot => H content ∧ snapshot = content)
      (fun _ _ => Unloadable e) := by
  refine triple_bind demand_known fun _ => triple_bind demand_known fun _ =>
    triple_modify_bind fun w hw => ?_
  have hblank : Known e start (fun content snapshot => H content ∧ Copied 0 content snapshot)
      { w with snapshot := List.replicate size 0 } := by
    refine ⟨hw.environment, hw.start_le, fun content hheld => ?_⟩
    have hH := hw.known content hheld
    refine ⟨hH, ?_⟩
    rw [Copied, hsize _ hH]
    rfl
  refine triple_pre (triple_bind demand_known fun _ => ?_) fun w' hw' => hw' ▸ hblank
  refine triple_conseq (overChunks_spec
    (I := fun offset content snapshot => H content ∧ Copied offset content snapshot)
    (fun offset count hle => ?_) (Nat.zero_le size) le_rfl) (fun w hw => hw)
    (fun _ w hw => hw.imp fun content snapshot ⟨hH, hcopied⟩ => ⟨hH, ?_⟩) fun _ _ h => h
  · refine triple_bind (triple_raise readExactAt_spec fun _ _ hnone => ?_) fun data =>
      triple_pre (writeExactAt_spec hsize hle) fun w hw => hw.imp fun content snapshot h =>
        ⟨h.1, Nat.le_add_right _ _, h.2⟩
    rintro ⟨f, hsteady, hmax, -⟩
    refine hnone ⟨f, hsteady, fun snapshot ⟨hH, _⟩ => ?_⟩
    have hlength := hsize _ hH
    rw [heldContent]
    omega
  · rw [hcopied, hsize _ hH, List.take_of_length_le (Nat.le_of_eq (hsize _ hH)), Nat.sub_self,
      List.replicate_zero, List.append_nil]

/-- The comparison of the file with its copy. -/
theorem sameFileContents_spec (hsize : ∀ content, H content → content.length = size) :
    Triple (Known e start fun content snapshot => H content ∧ snapshot = content)
      (sameFileContents size)
      (fun _ => Known e start fun content snapshot => H content ∧ snapshot = content)
      (fun _ _ => Unloadable e) := by
  refine triple_bind demand_known fun _ => overChunks_spec
    (I := fun _ content snapshot => H content ∧ snapshot = content)
    (fun offset count hle => ?_) (Nat.zero_le size) le_rfl
  refine triple_bind (triple_raise readExactAt_spec fun _ _ hnone => ?_) fun left =>
    triple_bind (triple_raise readExactAt_spec fun _ _ hnone => ?_) fun right => ?_
  · rintro ⟨f, hsteady, hmax, -⟩
    refine hnone ⟨f, hsteady, fun snapshot ⟨hH, _⟩ => ?_⟩
    have hlength := hsize _ hH
    rw [heldContent]
    omega
  · rintro ⟨f, hsteady, hmax, -⟩
    refine hnone ⟨f, hsteady, fun snapshot ⟨⟨hH, hsame⟩, _⟩ => ?_⟩
    have hlength := hsize _ hH
    rw [heldContent, hsame]
    omega
  · by_cases hsame : left = right
    · rw [if_pos hsame]
      exact triple_pure fun w hw => hw.imp fun content snapshot h => h.1.1
    · rw [if_neg hsame]
      refine triple_throw fun w hw => ?_
      rintro ⟨f, hsteady, -⟩
      obtain ⟨⟨⟨-, hcopy⟩, hleft⟩, hright⟩ := hw.of_steady hsteady
      refine hsame (hleft.trans (hright.trans ?_).symm)
      rw [heldContent, heldContent, hcopy]

/-- A clone that is used has the content of the file. -/
theorem cloneSource_spec :
    Triple (Known e start fun content _ => H content) (cloneSource size)
      (fun cloned => Known e start fun content snapshot => H content ∧
        (cloned = true → snapshot = content))
      (fun _ _ => Unloadable e) := by
  refine triple_get_bind fun w₀ hw₀ => triple_ask_bind ?_
  rintro w rfl
  have hrefused : Known e start (fun content snapshot => H content ∧
      (false = true → snapshot = content)) w.next :=
    hw₀.next.imp fun content snapshot hH => ⟨hH, fun hfalse => by cases hfalse⟩
  cases hclones : w.environment.clones w.ticks with
  | false =>
    rw [if_neg Bool.false_ne_true]
    refine triple_pure ?_
    rintro _ rfl
    exact hrefused
  | true =>
    rw [if_pos rfl]
    refine triple_modify_bind ?_
    rintro _ rfl
    refine triple_ask_bind ?_
    rintro w₁ rfl
    have hcloned : ∀ cloned : Bool, Known e start (fun content snapshot => H content ∧
        (cloned = true → snapshot = content))
        (LoadWorld.next { w.next with snapshot := w.content .source }) := by
      refine fun cloned => ⟨hw₀.environment, ?_, fun content hheld => ⟨?_, fun _ => ?_⟩⟩
      · exact Nat.le_succ_of_le (Nat.le_succ_of_le hw₀.start_le)
      · exact hw₀.known content (hheld.mono (Nat.le_succ_of_le (Nat.le_succ _)))
      · have hsource := hheld w.ticks hw₀.start_le (Nat.lt_succ_of_le (Nat.le_succ _))
        rw [← hw₀.environment] at hsource
        exact hsource
    split
    · refine triple_pure ?_
      rintro _ rfl
      exact hcloned _
    · refine triple_pure ?_
      rintro _ rfl
      exact hcloned _

end Copy

/-! ### The loader -/

theorem readU64Le_slice {content : Bytes} {position : ℕ} (h : position + 8 ≤ kHeaderSize) :
    readU64Le (slice content 0 kHeaderSize) position = readU64Le content position := by
  rw [readU64Le, readU64Le, slice, List.drop_zero, Nat.sub_zero, List.drop_take, List.take_take,
    Nat.min_eq_left (by omega)]

/-- An index file by its header. -/
theorem isIndexFile_iff {content : Bytes} {ntotal dim : ℕ} :
    IsIndexFile content ntotal dim ↔
      readShape (slice content 0 kHeaderSize) = some (ntotal, dim, content.length) ∧
        ∀ x ∈ ofBytes (content.drop 16), isFinite x = true := by
  rw [readShape_eq_some_iff, readU64Le_slice (by decide), readU64Le_slice (by decide)]
  constructor
  · intro h
    exact ⟨⟨⟨h.header_ntotal, h.header_dim⟩, ⟨h.ntotal_pos, h.ntotal_le, h.dim_pos, h.dim_le⟩,
      h.length, h.size_lt⟩, h.finite⟩
  · rintro ⟨⟨⟨hn, hd⟩, ⟨hnpos, hnle, hdpos, hdle⟩, hlength, hlt⟩, hfinite⟩
    exact ⟨hn, hd, hnpos, hnle, hdpos, hdle, hlt, hlength, hfinite⟩

theorem Source.identity_eq_some {file : Source} {identity : FileIdentity}
    (h : file.identity = some identity) : identity.size = file.content.length := by
  rw [Source.identity] at h
  split at h
  · cases h
  · rw [← Option.some.inj h]

theorem Source.identity_ne_none {file : Source} (h : file.isRegular = true) :
    file.identity ≠ none := by
  rw [Source.identity, h]
  simp

/-- What the header of a content tells. -/
def HasShape (ntotal dim size : ℕ) (content : Bytes) : Prop :=
  readShape (slice content 0 kHeaderSize) = some (ntotal, dim, size) ∧ content.length = size

/-- The snapshot is the file that was opened, and its header tells its size. -/
theorem takeSnapshot_spec :
    Triple (Known e start fun _ _ => True) takeSnapshot
      (fun result w => (∀ f, e.Steady f → f.identity = some result.1) ∧
        Known e start (fun content snapshot =>
          readShape (slice content 0 kHeaderSize) = some (result.2.1, result.2.2, content.length) ∧
            snapshot = content) w)
      (fun _ _ => Unloadable e) := by
  refine triple_bind demand_known fun _ => triple_bind statSource_spec fun file =>
    triple_of_fact fun hfile => ?_
  cases hidentity : file.identity with
  | none =>
    refine triple_throw fun w hw => ?_
    rintro ⟨f, hsteady, -⟩
    rw [hfile f hsteady] at hidentity
    exact Source.identity_ne_none hsteady.isRegular hidentity
  | some identity =>
    dsimp only
    have hsize := Source.identity_eq_some hidentity
    by_cases hsmall : identity.size < kHeaderSize ∨ 2 ^ 64 - 1 < identity.size
    · rw [if_pos hsmall]
      refine triple_throw fun w hw => ?_
      rintro ⟨f, hsteady, -, ntotal, dim, hindex⟩
      have hlength := hindex.length
      have hlt := hindex.size_lt
      rw [hfile f hsteady] at hsize
      rw [kHeaderSize] at hsmall
      omega
    rw [if_neg hsmall]
    refine triple_bind (triple_conseq (preadLoop_spec (le_refl kHeaderSize) (le_refl 0))
      (fun w hw => hw.imp fun content snapshot h => ⟨h, (slice_self _ _).symm⟩) (fun _ _ h => h)
      fun _ w hnone => ?_) fun header => ?_
    · rintro ⟨f, hsteady, -, ntotal, dim, hindex⟩
      refine hnone ⟨f, hsteady, fun snapshot _ => ?_⟩
      rw [heldContent, hindex.length, kHeaderSize]
      omega
    have hheader : ∀ {f w ntotal dim}, e.Steady f → IsIndexFile f.content ntotal dim →
        Known e start (fun content snapshot => (True ∧ file.content = content) ∧
          header = slice (heldContent .source content snapshot) 0 (0 + kHeaderSize)) w →
        readShape header = some (ntotal, dim, f.content.length) := by
      intro f w ntotal dim hsteady hindex hw
      rw [(hw.of_steady hsteady).2, heldContent, Nat.zero_add]
      exact (isIndexFile_iff.1 hindex).1
    cases hshape : readShape header with
    | none =>
      refine triple_throw fun w hw => ?_
      rintro ⟨f, hsteady, -, ntotal, dim, hindex⟩
      rw [hheader hsteady hindex hw] at hshape
      cases hshape
    | some shape =>
      obtain ⟨ntotal, dim, expectedSize⟩ := shape
      dsimp only
      by_cases hexpected : expectedSize ≠ identity.size
      · rw [if_pos hexpected]
        refine triple_throw fun w hw => ?_
        rintro ⟨f, hsteady, -, ntotal', dim', hindex⟩
        rw [hheader hsteady hindex hw] at hshape
        obtain ⟨-, hpair⟩ := Prod.mk.inj (Option.some.inj hshape)
        rw [hfile f hsteady] at hsize
        exact hexpected ((Prod.mk.inj hpair).2.symm.trans hsize.symm)
      rw [if_neg hexpected]
      rw [not_not] at hexpected
      have hident : ∀ f, e.Steady f → f.identity = some identity :=
        fun f hsteady => hfile f hsteady ▸ hidentity
      have hlength : ∀ content, HasShape ntotal dim expectedSize content →
          content.length = expectedSize := fun _ => And.right
      have hdone : ∀ w, Known e start (fun content snapshot =>
          HasShape ntotal dim expectedSize content ∧ snapshot = content) w →
          Known e start (fun content snapshot =>
            readShape (slice content 0 kHeaderSize) = some (ntotal, dim, content.length) ∧
              snapshot = content) w := by
        refine fun w hw => hw.imp fun content snapshot ⟨hshape, hsame⟩ => ⟨?_, hsame⟩
        rw [hshape.1, hshape.2]
      have hknown : ∀ w, Known e start (fun content snapshot => (True ∧ file.content = content) ∧
          header = slice (heldContent .source content snapshot) 0 (0 + kHeaderSize)) w →
          Known e start (fun content _ => HasShape ntotal dim expectedSize content) w := by
        refine fun w hw => hw.imp fun content snapshot ⟨⟨_, hcontent⟩, hheader⟩ => ⟨?_, ?_⟩
        · rw [heldContent, Nat.zero_add] at hheader
          rw [← hheader, hshape]
        · rw [← hcontent, ← hsize, hexpected]
      refine triple_pre (triple_bind demand_known fun _ => triple_modify_bind fun w hw => ?_) hknown
      have hcleared : Known e start (fun content _ => HasShape ntotal dim expectedSize content)
          { w with snapshot := [] } := ⟨hw.environment, hw.start_le, hw.known⟩
      refine triple_pre (triple_bind cloneSource_spec fun cloned => ?_) fun w' hw' =>
        hw' ▸ hcleared
      cases cloned with
      | true =>
        rw [if_pos rfl]
        exact triple_pure fun w hw => ⟨hident, hdone w (hw.imp fun content snapshot h =>
          ⟨h.1, h.2 rfl⟩)⟩
      | false =>
        rw [if_neg Bool.false_ne_true]
        refine triple_bind (triple_pre (copySource_spec hlength) fun w hw =>
          hw.imp fun content snapshot h => h.1) fun _ => ?_
        exact triple_bind (sameFileContents_spec hlength) fun _ =>
          triple_pure fun w hw => ⟨hident, hdone w hw⟩

/-- **What is loaded is the file.** An index that was loaded holds the vectors of a file that is
exactly as long as its header tells and has finite values only, whoever else uses the file, if it
was the same at all reads; and only a change, a failure or another content keeps a file from being
loaded. -/
theorem load_spec :
    Triple (fun w => w.environment = e ∧ w.ticks = start) load
      (fun index => Known e start fun content _ =>
        IsIndexFile content index.ntotal index.dim ∧ index.data = ofBytes (content.drop 16))
      (fun _ _ => Unloadable e) := by
  have hstart : ∀ w : LoadWorld, w.environment = e ∧ w.ticks = start →
      Known e start (fun _ _ => True) w :=
    fun w hw => ⟨hw.1, Nat.le_of_eq hw.2.symm, fun _ _ => trivial⟩
  refine triple_bind (triple_pre takeSnapshot_spec hstart) fun ⟨identity, ntotal, dim⟩ =>
    triple_of_fact fun hident => ?_
  dsimp only
  refine triple_bind statSource_spec fun descriptor => triple_of_fact fun hdescriptor =>
    triple_bind statPath_spec fun path => triple_of_fact fun hpath => ?_
  by_cases hchanged : descriptor.identity ≠ some identity ∨ path.identity ≠ some identity
  · rw [if_pos hchanged]
    refine triple_throw fun w hw => ?_
    rintro ⟨f, hsteady, -⟩
    rw [hdescriptor f hsteady, hpath f hsteady, hident f hsteady] at hchanged
    exact hchanged.elim (fun h => h rfl) fun h => h rfl
  rw [if_neg hchanged]
  refine triple_bind demand_known fun _ => triple_get_bind fun w hw => ?_
  have hdata : ∀ {content}, readShape (slice content 0 kHeaderSize) =
      some (ntotal, dim, content.length) → w.snapshot = content →
      (mapped w.snapshot ntotal dim).data = ofBytes (content.drop 16) := by
    intro content hshape hsame
    rw [hsame]
    exact mapped_data (readShape_eq_some_iff.1 hshape).2.2.1
  by_cases hfinite : (mapped w.snapshot ntotal dim).data.all isFinite = false
  · rw [if_pos hfinite]
    refine triple_throw ?_
    rintro _ rfl ⟨f, hsteady, -, ntotal', dim', hindex⟩
    obtain ⟨⟨hshape, hsame⟩, -⟩ := hw.of_steady hsteady
    rw [hdata hshape hsame, ← Bool.not_eq_true, List.all_eq_true] at hfinite
    exact hfinite hindex.finite
  · rw [if_neg hfinite]
    refine triple_pure ?_
    rintro _ rfl
    refine ⟨hw.environment, hw.start_le, fun content hheld => ?_⟩
    obtain ⟨⟨hshape, hsame⟩, -⟩ := hw.known content hheld
    have hvalues := hdata hshape hsame
    rw [Bool.not_eq_false, hvalues, List.all_eq_true] at hfinite
    exact ⟨isIndexFile_iff.2 ⟨hshape, hfinite⟩, hvalues⟩

end Spec

end Resonantia.Index
