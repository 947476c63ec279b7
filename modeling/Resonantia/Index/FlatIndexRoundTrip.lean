import Resonantia.Index.FlatIndexLoad

/-!
# The round trip of a flat index

The writer of `build_index` and the loader of `CudaFlatIndex` are two programs that only share the
format of the file. Each of them is known by its own specification; here they meet.

## Main definitions

* `Index.Loadable`: the shapes that both programs take.

## Main results

* `Index.target_of_write`: the target is the old file or the complete new one.
* `Index.load_isOk_iff`: index files and nothing else are loaded.
* `Index.index_round_trip`: the file of the writer is loaded, and its rows are read back.
-/

namespace Resonantia.Index

open ByteString Effect FloatWord Slices
open Io (offMax)
open Pipeline (u64_of_lt)

/-! ### Writing and loading -/

section RoundTrip

variable {rows dimensions : UInt64} {features : List UInt32}

/-- The shapes that both the writer and the loader take. -/
structure Loadable (rows dimensions : UInt64) (features : List UInt32) : Prop where
  shape : validShape rows dimensions features = true
  rows_le : rows.toNat ≤ 2 ^ 63 - 1
  dimensions_le : dimensions.toNat ≤ 2 ^ 31 - 1
  size_le : 16 + 4 * features.length ≤ offMax
  finite : ∀ x ∈ features, isFinite x = true

theorem drop_indexBytes :
    (indexBytes rows dimensions features).drop 16 = features.flatMap toBytes := by
  rw [indexBytes, List.drop_left']
  rw [List.length_append, length_littleEndian, length_littleEndian]

theorem length_indexBytes :
    (indexBytes rows dimensions features).length = 16 + 4 * features.length := by
  rw [indexBytes, List.length_append, List.length_append, length_littleEndian, length_littleEndian,
    length_flatMap_toBytes]

theorem features_length (h : validShape rows dimensions features = true) :
    0 < rows.toNat ∧ 0 < dimensions.toNat ∧ rows.toNat * dimensions.toNat = features.length := by
  simp only [validShape, Bool.and_eq_true, decide_eq_true_eq] at h
  obtain ⟨⟨⟨⟨hrows, hdimensions⟩, -⟩, hcount⟩, -⟩ := h
  have hpos : ∀ {n : UInt64}, n ≠ 0 → 0 < n.toNat := fun hne =>
    Nat.pos_of_ne_zero fun hzero => hne (UInt64.toNat_inj.1 hzero)
  exact ⟨hpos hrows, hpos hdimensions, hcount⟩

/-- What the writer writes is an index file. -/
theorem isIndexFile_indexBytes (h : Loadable rows dimensions features) :
    IsIndexFile (indexBytes rows dimensions features) rows.toNat dimensions.toNat := by
  obtain ⟨hrows, hdimensions, hcount⟩ := features_length h.shape
  have hsize := h.size_le
  have hmax : offMax < 2 ^ 64 := by decide
  have hfirst : (indexBytes rows dimensions features).take 8 = littleEndian 8 rows.toNat := by
    rw [indexBytes, List.append_assoc, List.take_left' (length_littleEndian 8 _)]
  have hsecond : ((indexBytes rows dimensions features).drop 8).take 8 =
      littleEndian 8 dimensions.toNat := by
    rw [indexBytes, List.append_assoc, List.drop_left' (length_littleEndian 8 _),
      List.take_left' (length_littleEndian 8 _)]
  refine ⟨?_, ?_, hrows, h.rows_le, hdimensions, h.dimensions_le, ?_, ?_, ?_⟩
  · rw [readU64Le, List.drop_zero, hfirst, ofLittleEndian_littleEndian rows.toNat_lt]
  · rw [readU64Le, hsecond, ofLittleEndian_littleEndian dimensions.toNat_lt]
  · rw [hcount]
    omega
  · rw [length_indexBytes, hcount]
  · rw [drop_indexBytes, ofBytes_flatMap_toBytes]
    exact h.finite

/-- A row that exists is read back. -/
theorem reconstruct_eq {index : CudaFlatIndex UInt32} {ntotal dim i : ℕ}
    (hntotal : index.ntotal = ntotal) (hdim : index.dim = dim) (hpos : 0 < dim) (hi : i < ntotal)
    (hsize : ntotal * dim < 2 ^ 64) :
    reconstruct true index i dim = slice index.data (i * dim) ((i + 1) * dim) := by
  subst hntotal hdim
  have hrow : (i + 1) * index.dim = i * index.dim + index.dim := Nat.succ_mul i index.dim
  have hle : (i + 1) * index.dim ≤ index.ntotal * index.dim := Nat.mul_le_mul_right _ hi
  have hvalid : index.valid = true := by
    rw [CudaFlatIndex.valid, Bool.and_eq_true, decide_eq_true_eq, decide_eq_true_eq]
    exact ⟨by omega, hpos⟩
  have haccepted : ¬(index.valid = false ∨ (i : ℤ) < 0 ∨ (index.ntotal : ℤ) ≤ i ∨
      (index.dim : ℤ) ≤ 0 ∨ (index.dim : ℤ) ≠ index.dim ∨ true = false) := by
    rw [hvalid]
    rintro (hfalse | hneg | hlast | hdim | hne | hfalse)
    · cases hfalse
    · omega
    · omega
    · omega
    · exact hne rfl
    · cases hfalse
  rw [reconstruct, if_neg haccepted, Int.toNat_natCast, u64_of_lt (by omega), hrow]

theorem perm_id (files : FileSystem.Files) : (id files).Perm files := List.Perm.refl files

/-- Two vectors of the plane. -/
def twoRows : List UInt32 := [0x3f800000, 0x40000000, 0xbf800000, 0]

/-- A directory with an old index, whose calls have given faults. -/
def writerWorld (fault : ℕ → FileSystem.Fault) : FileSystem.World Unit where
  files := [(bytes "index", [1, 2, 3])]
  renamed := []
  memory := ()
  environment := ⟨fault, id, perm_id⟩
  ticks := 0

/-- A run of the writer with two vectors, three bytes at a time. -/
def written (fault : ℕ → FileSystem.Fault) :
    Except FileSystem.Stop Unit × FileSystem.World Unit :=
  exec (writeIndexAtomically (fun _ => 3) 7 (bytes "index") 2 2 twoRows) (writerWorld fault)

def calm (_ : ℕ) : FileSystem.Fault := .none

/-- The process dies in the middle of its writes. -/
def dying (tick : ℕ) : FileSystem.Fault := if tick = 5 then .crash 1 else .none

/-- The file that it writes. -/
def indexSource : Source where
  content := indexBytes 2 2 twoRows
  isRegular := true
  device := 0
  inode := 0
  modified := (0, 0)
  changed := (0, 0)

/-- A file system that does not clone, and moves three bytes at a time. -/
def readerWorld : LoadWorld where
  snapshot := []
  environment :=
    { source := fun _ => indexSource, atPath := fun _ => indexSource, succeeds := fun _ => true
      clones := fun _ => false, transfer := fun _ => some 3 }
  ticks := 0

theorem written_ok : (written calm).1 = .ok () := by decide +kernel

theorem loadable_twoRows : Loadable 2 2 twoRows where
  shape := by decide
  rows_le := by decide
  dimensions_le := by decide
  size_le := by decide
  finite := List.all_eq_true.1 (by decide)

theorem steady_readerWorld : readerWorld.environment.Steady indexSource where
  source _ := rfl
  atPath _ := rfl
  isRegular := rfl
  succeeds _ := rfl
  transfer _ := ⟨2, rfl⟩

/-- **The target is the old file or the complete new one.** A run of the writer that returns has
published the index; a run that fails left all files as they were; a run that dies left the target
as it was or with the whole index, and it fails only if something prevents it. -/
theorem target_of_write {μ : Type} {accepts : ℕ → ℕ} {pid : ℕ} {target : FileSystem.FileName}
    {w w' : FileSystem.World μ} {result : Except FileSystem.Stop Unit}
    (hrun : exec (writeIndexAtomically accepts pid target rows dimensions features) w =
      (result, w')) :
    result = .ok () ∧ validShape rows dimensions features = true ∧
        Published w.files target (indexBytes rows dimensions features) w' ∨
      ∃ stop, result = .error stop ∧
        ¬Ready accepts pid target rows dimensions features w.files w.environment ∧
        (Untouched w.files target w' ∨
          stop = .crashed ∧ Published w.files target (indexBytes rows dimensions features) w') := by
  have hinitial : Initial w.files w.environment w := ⟨rfl, rfl⟩
  rcases triple_elim writeIndexAtomically_spec hinitial hrun with
    ⟨⟨⟩, hok, hvalid, hpublished⟩ | ⟨stop, herror, hready, hleft⟩
  · exact Or.inl ⟨hok, hvalid, hpublished⟩
  · exact Or.inr ⟨stop, herror, hready, hleft⟩

/-- One run comes to its end, the other one dies: the old index is replaced, or it is still there or
replaced. -/
theorem target_of_write_twoRows :
    FileSystem.find (written calm).2.files (bytes "index") = some (indexBytes 2 2 twoRows) ∧
      (written dying).1 = .error .crashed ∧
      (FileSystem.find (written dying).2.files (bytes "index") = some [1, 2, 3] ∨
        FileSystem.find (written dying).2.files (bytes "index") =
          some (indexBytes 2 2 twoRows)) := by
  have hrun : ∀ fault, exec (writeIndexAtomically (fun _ => 3) 7 (bytes "index") 2 2 twoRows)
      (writerWorld fault) = ((written fault).1, (written fault).2) := fun _ => Prod.mk.eta.symm
  have hdied : (written dying).1 = .error .crashed := by decide
  refine ⟨?_, hdied, ?_⟩
  · rcases target_of_write (hrun calm) with ⟨-, -, hpublished⟩ | ⟨stop, herror, -⟩
    · have htarget := hpublished (bytes "index")
      rwa [if_pos rfl] at htarget
    · rw [written_ok] at herror
      cases herror
  · rcases target_of_write (hrun dying) with ⟨hok, -⟩ | ⟨stop, -, -, huntouched | ⟨-, hpublished⟩⟩
    · rw [hdied] at hok
      cases hok
    · exact Or.inl (huntouched (bytes "index") (Or.inl rfl))
    · have htarget := hpublished (bytes "index")
      rw [if_pos rfl] at htarget
      exact Or.inr htarget

/-- **Index files and nothing else are loaded.** Of a file that nobody changes, with calls that do
not fail, exactly those with an index in them are loaded. -/
theorem load_isOk_iff {s s' : LoadWorld} {file : Source}
    {result : Except Unit (CudaFlatIndex UInt32)} (hsteady : s.environment.Steady file)
    (hsize : file.content.length ≤ offMax) (hload : exec load s = (result, s')) :
    (∃ index, result = .ok index) ↔ ∃ ntotal dim, IsIndexFile file.content ntotal dim := by
  rcases triple_elim (@load_spec s.environment s.ticks) ⟨rfl, rfl⟩ hload with
    ⟨index, hok, hindex⟩ | ⟨stop, herror, hunloadable⟩
  · refine iff_of_true ⟨index, hok⟩ ⟨_, _, (hindex.of_steady hsteady).1⟩
  · refine iff_of_false ?_ fun hshape => hunloadable ⟨file, hsteady, hsize, hshape⟩
    rintro ⟨index, hok⟩
    rw [herror] at hok
    cases hok

theorem load_isOk_iff_twoRows : ∃ index, (exec load readerWorld).1 = .ok index :=
  (load_isOk_iff steady_readerWorld (by decide) Prod.mk.eta.symm).2
    ⟨_, _, isIndexFile_indexBytes loadable_twoRows⟩

/-- **The round trip.** What the writer published is loaded as the same vectors, and every row is
read back, whatever the transfers of both moved at a time and whether or not the file was cloned; a
change of the file is the only thing besides failures that keeps it from being loaded. -/
theorem index_round_trip {μ : Type} {accepts : ℕ → ℕ} {pid : ℕ} {target : FileSystem.FileName}
    {w w' : FileSystem.World μ} {s s' : LoadWorld} {file : Source}
    {result : Except Unit (CudaFlatIndex UInt32)} (hloadable : Loadable rows dimensions features)
    (hwrite : exec (writeIndexAtomically accepts pid target rows dimensions features) w =
      (.ok (), w'))
    (hfile : FileSystem.find w'.files target = some file.content)
    (hload : exec load s = (result, s')) :
    (∀ index, result = .ok index → s.environment.Held s.ticks s'.ticks file.content →
      index.ntotal = rows.toNat ∧ index.dim = dimensions.toNat ∧ index.data = features ∧
        ∀ i < rows.toNat, reconstruct true index i dimensions.toNat =
          slice features (i * dimensions.toNat) ((i + 1) * dimensions.toNat)) ∧
      (s.environment.Steady file → ∃ index, result = .ok index) := by
  have hcontent : file.content = indexBytes rows dimensions features := by
    have hinitial : Initial w.files w.environment w := ⟨rfl, rfl⟩
    rcases triple_elim writeIndexAtomically_spec hinitial hwrite with
      ⟨-, -, -, hpublished⟩ | ⟨stop, herror, -⟩
    · have htarget := hpublished target
      rw [if_pos rfl, hfile] at htarget
      exact Option.some.inj htarget
    · cases herror
  have hindexFile := isIndexFile_indexBytes hloadable
  rcases triple_elim (@load_spec s.environment s.ticks) ⟨rfl, rfl⟩ hload with
    ⟨index, rfl, hindex⟩ | ⟨stop, rfl, hunloadable⟩
  · refine ⟨fun index' hok hheld => ?_, fun _ => ⟨index, rfl⟩⟩
    obtain rfl := Except.ok.inj hok
    rw [hcontent] at hheld
    obtain ⟨hfound, hdata⟩ := hindex.known _ hheld
    have hntotal : index.ntotal = rows.toNat :=
      hfound.header_ntotal.symm.trans hindexFile.header_ntotal
    have hdim : index.dim = dimensions.toNat := hfound.header_dim.symm.trans hindexFile.header_dim
    rw [drop_indexBytes, ofBytes_flatMap_toBytes] at hdata
    refine ⟨hntotal, hdim, hdata, fun i hi => ?_⟩
    have hlt := hindexFile.size_lt
    rw [reconstruct_eq hntotal hdim hindexFile.dim_pos hi (by omega), hdata]
  · refine ⟨fun index hok => ?_, fun hsteady => ?_⟩
    · cases hok
    refine (hunloadable ⟨file, hsteady, ?_, _, _, hcontent ▸ hindexFile⟩).elim
    rw [hcontent, length_indexBytes]
    exact hloadable.size_le

/-- The second row is read back. -/
theorem index_round_trip_twoRows :
    ∃ index, (exec load readerWorld).1 = .ok index ∧ index.data = twoRows ∧
      reconstruct true index 1 2 = [0xbf800000, 0] := by
  have hrun : written calm = (.ok (), (written calm).2) := by rw [← written_ok]
  have hfile : FileSystem.find (written calm).2.files (bytes "index") =
      some indexSource.content := by
    decide +kernel
  obtain ⟨hloaded, hsteady⟩ := index_round_trip (s := readerWorld) loadable_twoRows hrun hfile
    Prod.mk.eta.symm
  obtain ⟨index, hindex⟩ := hsteady steady_readerWorld
  obtain ⟨-, -, hdata, hrows⟩ := hloaded index hindex (steady_readerWorld.held _ _)
  exact ⟨index, hindex, hdata, hrows 1 (by decide)⟩

end RoundTrip

end Resonantia.Index
