import Resonantia.Io.SafetensorsFormat

/-!
# The tensors of an accepted file

`SafetensorsLoader` hands out pointers into the file. The shapes and offsets of its header come from
the file, and every later copy of a tensor rests on the checks that `parse_header` makes of them.

## Main definitions

* `Io.Safetensors.SafetensorsLoader`: the loader with `get_tensor`, `tensor_names` and `data`.
* `Io.Safetensors.Tensor.Placed`: a tensor that lies in the data section of a file.
* `Io.Safetensors.SafetensorsLoader.Sound`: what a loader promises after an accepted file.

## Main results

* `Io.Safetensors.sound_of_accepted`: the promise is kept for every accepted file.
-/

namespace Resonantia.Io.Safetensors

open ByteString

/-! ### The loader -/

/-- The mapped file, if there is one, and the tensors by their names. -/
structure SafetensorsLoader where
  data : Option Bytes := none
  tensors : List Tensor := []

namespace SafetensorsLoader

/-- What `load` and `load_snapshot` leave: nothing of a file that was refused. -/
def ofResult (file : Bytes) : Option (List Tensor) → SafetensorsLoader
  | none => {}
  | some tensors => ⟨some file, tensors⟩

/-- `get_tensor`. -/
def getTensor (loader : SafetensorsLoader) (name : Bytes) : Option Tensor :=
  loader.tensors.find? fun tensor => tensor.name = name

/-- `tensor_names`. -/
def tensorNames (loader : SafetensorsLoader) : List Bytes := loader.tensors.map Tensor.name

/-- The bytes behind the pointer of `SafetensorsLoader::data`, which is null for `none`. -/
def dataOf (loader : SafetensorsLoader) (name : Bytes) : Option Bytes := do
  let tensor ← loader.getTensor name
  let file ← loader.data
  tensor.data? file

end SafetensorsLoader

/-- The bytes of a tensor in its file, as a range. -/
def Tensor.extent (tensor : Tensor) : ℕ × ℕ :=
  (tensor.dataOffset, tensor.dataOffset + tensor.dataNbytes)

/-- The byte at this position of the file belongs to the tensor. -/
def Tensor.Covers (tensor : Tensor) (position : ℕ) : Prop :=
  tensor.dataOffset ≤ position ∧ position < tensor.dataOffset + tensor.dataNbytes

/-- A tensor within the data section. The products are those of the loop over its shape. -/
structure Tensor.Placed (file : Bytes) (tensor : Tensor) : Prop where
  within : dataStart file ≤ tensor.dataOffset ∧
    tensor.dataOffset + tensor.dataNbytes ≤ file.length
  size : tensor.dataNbytes = 4 * tensor.shape.prod
  products : ∀ dim dims, dim :: dims <:+ tensor.shape →
    4 * dims.prod * dim < 2 ^ 64 ∧ dims.prod * dim < 2 ^ 64
  words : tensor.dataOffset < 2 ^ 64 ∧ tensor.dataNbytes < 2 ^ 64
  rank : tensor.strides.length = tensor.shape.length
  strides : ∀ i, i < tensor.shape.length →
    tensor.strides[i]? = some (4 * (tensor.shape.drop (i + 1)).prod)
  strides_lt : ∀ stride ∈ tensor.strides, stride < 2 ^ 63

/-- What a loader promises after it has accepted a file. -/
structure SafetensorsLoader.Sound (loader : SafetensorsLoader) (file : Bytes) : Prop where
  placed : ∀ tensor ∈ loader.tensors, tensor.Placed file
  disjoint : loader.tensors.Pairwise fun a b => ∀ position,
    ¬(a.Covers position ∧ b.Covers position)
  tiles : ∃ order : List (ℕ × ℕ), order.Perm (loader.tensors.map Tensor.extent) ∧
    Tiles (dataStart file) order file.length
  covers : ∀ position, (∃ tensor ∈ loader.tensors, tensor.Covers position) ↔
    dataStart file ≤ position ∧ position < file.length
  names : loader.tensorNames.Nodup
  data : ∀ name ∈ loader.tensorNames, ∃ tensor, loader.getTensor name = some tensor ∧
    loader.dataOf name = some ((file.drop tensor.dataOffset).take tensor.dataNbytes)

/-! ### Shapes -/

theorem length_strides (dims : List ℕ) : (strides dims).length = dims.length := by
  induction dims with
  | nil => rfl
  | cons dim dims ih => rw [strides, List.length_cons, List.length_cons, ih]

/-- The strides are those of the rows behind each dimension. -/
theorem getElem?_strides {dims : List ℕ} {i : ℕ} (h : i < dims.length) :
    (strides dims)[i]? = some (4 * (dims.drop (i + 1)).prod) := by
  induction dims generalizing i with
  | nil => exact absurd h (Nat.not_lt_zero i)
  | cons dim dims ih =>
    cases i with
    | zero => rfl
    | succ i =>
      rw [strides, List.getElem?_cons_succ, ih (Nat.lt_of_succ_lt_succ h), List.drop_succ_cons]

theorem StridesFit.products {shape dims : List ℕ} {dim : ℕ} (h : StridesFit shape)
    (hsuffix : dim :: dims <:+ shape) :
    4 * dims.prod * dim < 2 ^ 64 ∧ dims.prod * dim < 2 ^ 64 := by
  induction shape with
  | nil => cases List.suffix_nil.1 hsuffix
  | cons first shape ih =>
    obtain ⟨hrest, -, hproduct⟩ := h
    rcases List.suffix_cons_iff.1 hsuffix with heq | hsuffix
    · obtain ⟨rfl, rfl⟩ := List.cons.inj heq
      rw [Nat.mul_comm dim] at hproduct
      rw [Nat.mul_assoc]
      exact ⟨hproduct, by omega⟩
    · exact ih hrest hsuffix

theorem StridesFit.lt {shape : List ℕ} (h : StridesFit shape) :
    ∀ stride ∈ strides shape, stride < 2 ^ 63 := by
  induction shape with
  | nil => exact fun _ hmem => (nomatch hmem)
  | cons dim shape ih => exact List.forall_mem_cons.2 ⟨h.2.1, ih h.1⟩

/-! ### Ranges -/

section Ranges

variable {ranges : List (ℕ × ℕ)} {start finish : ℕ}

/-- Ranges from another origin. -/
theorem Tiles.shift (h : Tiles start ranges finish) (origin : ℕ) :
    Tiles (origin + start) (ranges.map fun range => (origin + range.1, origin + range.2))
      (origin + finish) := by
  induction ranges generalizing start with
  | nil => exact congrArg (origin + ·) h
  | cons range ranges ih =>
    obtain ⟨hstart, hle, hrest⟩ := h
    exact ⟨congrArg (origin + ·) hstart, Nat.add_le_add_left hle origin, ih hrest⟩

/-- Of two ranges one ends before the other starts. -/
theorem Tiles.apart (h : Tiles start ranges finish) :
    ranges.Pairwise fun a b => a.2 ≤ b.1 ∨ b.2 ≤ a.1 := by
  induction ranges generalizing start with
  | nil => exact .nil
  | cons range ranges ih =>
    obtain ⟨-, -, hrest⟩ := h
    exact .cons (fun other hother => Or.inl (hrest.bounds.2 other hother).1) (ih hrest)

/-- The ranges leave nothing out. -/
theorem Tiles.covers (h : Tiles start ranges finish) (position : ℕ) :
    (∃ range ∈ ranges, range.1 ≤ position ∧ position < range.2) ↔
      start ≤ position ∧ position < finish := by
  induction ranges generalizing start with
  | nil =>
    obtain rfl : start = finish := h
    constructor
    · rintro ⟨range, hmem, -⟩
      cases hmem
    · rintro ⟨hle, hlt⟩
      exact absurd hle (Nat.not_le.2 hlt)
  | cons range ranges ih =>
    obtain ⟨hstart, hle, hrest⟩ := h
    have hbound := hrest.bounds.1
    rw [List.exists_mem_cons_iff, ih hrest]
    omega

end Ranges

/-! ### Accepted files -/

section Accepted

variable {file : Bytes} {entries : List (Bytes × Option TensorInfo)}

/-- The tensors that are kept of a description. -/
def keptTensors (file : Bytes) (entries : List (Bytes × Option TensorInfo)) : List Tensor :=
  (keptEntries (dataStart file) entries).filterMap fun entry => entry.2.tensor?

theorem keptTensors_eq (file : Bytes) (entries : List (Bytes × Option TensorInfo)) :
    keptTensors file entries = entries.filterMap fun entry =>
      entry.2.map fun info => info.tensor entry.1 (dataStart file) := by
  rw [keptTensors, keptEntries, List.filterMap_map]
  refine List.filterMap_congr ?_
  rintro ⟨name, info⟩ -
  cases info <;> rfl

theorem exists_of_mem_keptTensors {tensor : Tensor} (h : tensor ∈ keptTensors file entries) :
    ∃ name info, info ∈ entries.filterMap Prod.snd ∧
      tensor = info.tensor name (dataStart file) := by
  rw [keptTensors_eq] at h
  obtain ⟨⟨name, info?⟩, hmem, htensor⟩ := List.mem_filterMap.1 h
  obtain ⟨info, rfl, rfl⟩ := Option.map_eq_some_iff.1 htensor
  exact ⟨name, info, List.mem_filterMap.2 ⟨_, hmem, rfl⟩, rfl⟩

theorem placed_of_describes (h : Describes file entries) {tensor : Tensor}
    (hmem : tensor ∈ keptTensors file entries) : tensor.Placed file := by
  obtain ⟨name, info, hinfo, rfl⟩ := exists_of_mem_keptTensors hmem
  have hfits := h.fits info hinfo
  obtain ⟨-, hsized⟩ := forall_admissible_iff.1 h.admissible info hinfo
  have hheader := h.header
  have hwithin := hsized.within
  rw [dataSize, hsized.size] at hwithin
  exact {
    within := ⟨Nat.le_add_right _ _, by
      change dataStart file + info.start + 4 * info.shape.prod ≤ file.length
      omega⟩
    size := rfl
    products := fun _ _ => hfits.strides.products
    words := ⟨hfits.offset, hfits.bytes⟩
    rank := length_strides info.shape
    strides := fun _ => getElem?_strides
    strides_lt := hfits.strides.lt }

/-- The extents of the tensors are the ranges of the header behind the start of the data. -/
theorem map_extent_keptTensors (h : Describes file entries) :
    (keptTensors file entries).map Tensor.extent = (dataRanges entries).map fun range =>
      (dataStart file + range.1, dataStart file + range.2) := by
  rw [keptTensors_eq, dataRanges, List.map_filterMap, List.map_map, List.map_filterMap]
  refine List.filterMap_congr ?_
  rintro ⟨name, info?⟩ hmem
  cases info? with
  | none => rfl
  | some info =>
    have hsize := h.size info (List.mem_filterMap.2 ⟨_, hmem, rfl⟩)
    refine congrArg some (Prod.ext rfl ?_)
    change dataStart file + info.start + 4 * info.shape.prod = dataStart file + info.finish
    omega

theorem exists_tiles (h : Describes file entries) :
    ∃ order : List (ℕ × ℕ), order.Perm ((keptTensors file entries).map Tensor.extent) ∧
      Tiles (dataStart file) order file.length := by
  obtain ⟨order, hperm, htiles⟩ := h.tiles
  have hshift := htiles.shift (dataStart file)
  rw [Nat.add_zero, dataSize, Nat.add_sub_cancel' h.header] at hshift
  refine ⟨_, ?_, hshift⟩
  rw [map_extent_keptTensors h]
  exact hperm.map _

/-- The names of the tensors differ. -/
theorem nodup_names (h : (entries.map Prod.fst).Nodup) :
    ((keptTensors file entries).map Tensor.name).Nodup := by
  have hsublist : ((keptTensors file entries).map Tensor.name).Sublist (entries.map Prod.fst) := by
    rw [keptTensors_eq]
    induction entries with
    | nil => exact List.Sublist.refl _
    | cons entry entries ih =>
      have hrest := ih (List.nodup_cons.1 h).2
      obtain ⟨name, info?⟩ := entry
      cases info? with
      | none => exact hrest.cons _
      | some info => exact hrest.cons_cons _
  exact hsublist.nodup h

/-- Under distinct names every tensor is found. -/
theorem find?_of_mem {tensors : List Tensor} (h : (tensors.map Tensor.name).Nodup)
    {tensor : Tensor} (hmem : tensor ∈ tensors) :
    (tensors.find? fun t => t.name = tensor.name) = some tensor := by
  induction tensors with
  | nil => cases hmem
  | cons first tensors ih =>
    rw [List.map_cons, List.nodup_cons] at h
    rcases List.mem_cons.1 hmem with rfl | hmem
    · exact List.find?_cons_of_pos (decide_eq_true rfl)
    · have hne : first.name ≠ tensor.name := fun heq =>
        h.1 (heq ▸ List.mem_map_of_mem hmem)
      rw [List.find?_cons_of_neg (by simpa using hne), ih h.2 hmem]

/-- A tensor within its file has data. -/
theorem data?_of_placed {tensor : Tensor} (h : tensor.Placed file) :
    tensor.data? file = some ((file.drop tensor.dataOffset).take tensor.dataNbytes) := by
  have hwithin := h.within.2
  rw [Tensor.data?, if_neg]
  omega

/-- **An accepted file.** Its tensors tile the data section, each of the size of its shape, and the
pointer of every listed tensor can be used for all its bytes. -/
theorem sound_of_parseHeader {tensors : List Tensor} (h : parseHeader file = some tensors) :
    (SafetensorsLoader.ofResult file (some tensors)).Sound file := by
  obtain ⟨entries, htext, hdescribes, rfl⟩ := parseHeader_eq_some_iff.1 h
  change (SafetensorsLoader.ofResult file (some (keptTensors file entries))).Sound file
  obtain ⟨order, hperm, htiles⟩ := exists_tiles hdescribes
  have hplaced : ∀ tensor ∈ keptTensors file entries, tensor.Placed file :=
    fun _ hmem => placed_of_describes hdescribes hmem
  have hnames : ((keptTensors file entries).map Tensor.name).Nodup := by
    rcases htext with htext | htext
    · exact nodup_names htext.1
    · exact nodup_names htext.1
  refine ⟨hplaced, ?_, ⟨order, hperm, htiles⟩, fun position => ?_, hnames, fun name hname => ?_⟩
  · have hapart := (hperm.pairwise_iff fun {a b} (hab : a.2 ≤ b.1 ∨ b.2 ≤ a.1) => hab.symm).1
      htiles.apart
    refine (List.pairwise_map.1 hapart).imp ?_
    rintro a b hab position ⟨ha, hb⟩
    rw [Tensor.Covers] at ha hb
    simp only [Tensor.extent] at hab
    omega
  · rw [← htiles.covers position]
    constructor
    · rintro ⟨tensor, hmem, hcovers⟩
      exact ⟨_, hperm.mem_iff.2 (List.mem_map_of_mem hmem), hcovers⟩
    · rintro ⟨range, hmem, hcovers⟩
      obtain ⟨tensor, htensor, rfl⟩ := List.mem_map.1 (hperm.mem_iff.1 hmem)
      exact ⟨tensor, htensor, hcovers⟩
  · obtain ⟨tensor, hmem, rfl⟩ := List.mem_map.1 hname
    have hfind : (SafetensorsLoader.ofResult file (some (keptTensors file entries))).getTensor
        tensor.name = some tensor := find?_of_mem hnames hmem
    refine ⟨tensor, hfind, ?_⟩
    rw [SafetensorsLoader.dataOf, hfind]
    exact data?_of_placed (hplaced tensor hmem)

/-- **An accepted file**, by `load` or by `load_snapshot`. -/
theorem sound_of_accepted {tensors : List Tensor} (h : load file = some tensors ∨
      ∃ maxBytes, loadSnapshot maxBytes file = some tensors) :
    (SafetensorsLoader.ofResult file (some tensors)).Sound file := by
  rcases h with h | ⟨maxBytes, h⟩
  · exact sound_of_parseHeader h
  · obtain ⟨⟨⟩, -, h⟩ := Option.bind_eq_some_iff.1 h
    exact sound_of_parseHeader h

end Accepted

/-- A header that lists its two tensors against their order in the file. -/
def pairHeader : Bytes :=
  bytes "\x7b\"b\":\x7b\"dtype\":\"F32\",\"shape\":[],\"data_offsets\":[8,12]\x7d," ++
    bytes "\"a\":\x7b\"dtype\":\"F32\",\"shape\":[2,1],\"data_offsets\":[0,8]\x7d\x7d"

def pairFile : Bytes :=
  littleEndian 8 pairHeader.length ++ pairHeader ++ [0, 0, 128, 63, 0, 0, 0, 64, 0, 0, 64, 64]

def pairTensors : List Tensor :=
  [⟨bytes "b", bytes "F32", [], [], 125, 4⟩, ⟨bytes "a", bytes "F32", [2, 1], [4, 4], 117, 8⟩]

theorem load_pairFile : load pairFile = some pairTensors := by
  have hread : parseHeaderText 117 12 ((pairFile.drop 8).take 109) =
      some [(bytes "b", .tensor ⟨bytes "b", bytes "F32", [], [], 125, 4⟩ 8 12),
        (bytes "a", .tensor ⟨bytes "a", bytes "F32", [2, 1], [4, 4], 117, 8⟩ 0 8)] := by
    decide +kernel
  have hcover : ([(8, 12), (0, 8)].mergeSort rangeLe).foldlM cover 0 = some 12 := by
    rw [foldlM_cover_eq_some_iff, tiles_mergeSort_iff]
    exact ⟨[(0, 8), (8, 12)], List.Perm.swap _ _ _, by simp [Tiles]⟩
  have hlength : ofLittleEndian (pairFile.take 8) = 109 := by decide
  have hfile : pairFile.length = 129 := by decide +kernel
  rw [load, parseHeader, hlength, hfile]
  refine Option.bind_eq_some_iff.2 ⟨(), rfl, Option.bind_eq_some_iff.2 ⟨(), rfl,
    Option.bind_eq_some_iff.2 ⟨_, hread, Option.bind_eq_some_iff.2 ⟨12, hcover, rfl⟩⟩⟩⟩

theorem sound_of_accepted_pairFile :
    (SafetensorsLoader.ofResult pairFile (some pairTensors)).Sound pairFile :=
  sound_of_accepted (Or.inl load_pairFile)

end Resonantia.Io.Safetensors
