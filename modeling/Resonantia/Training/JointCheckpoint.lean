import Mathlib
import Mathlib.Algebra.BigOperators.Group.List.Lemmas
import Resonantia.Io.SafetensorsFormat
import Resonantia.Library.FloatWord

/-!
# Joint training checkpoints

A joint checkpoint is a safetensors file of named tensors with a last tensor `state`, whose values
are the bytes of a text. The writer prints the header by hand and pads it to a multiple of eight.

## Main definitions

* `Training.CheckpointTensor`, `Training.checkpointElements`, `Training.writeJointCheckpoint`: the
  writer.
* `Training.RoundTrips`: the loader gives back what was written.

## Main results

* `Training.writeJointCheckpoint_roundTrips_iff`: a written file is read back unless a tensor has
  the name that the format reserves for metadata, or the header is longer than the loader reads.
-/

namespace Resonantia.Training

open ByteString FloatWord Json Io.Safetensors

/-! ### The writer -/

def jointCheckpointMaxBytes : ℕ := 2 * 1024 * 1024 * 1024

def jointCheckpointMaxText : ℕ := 160 * 1024

/-- A tensor to be written, with the function that gives its values, if it is set. -/
structure CheckpointTensor where
  name : Bytes
  shape : List ℤ
  read : Option (List UInt32)
deriving DecidableEq

/-- `checkpoint_elements`. -/
def checkpointElements (shape : List ℤ) : Option ℕ :=
  if shape = [] ∨ 4 < shape.length then none
  else
    shape.foldlM (fun n d =>
      if d ≤ 0 ∨ jointCheckpointMaxBytes / 4 / d.toNat < n then none else some (n * d.toNat)) 1

def isNameByte (c : UInt8) : Bool :=
  97 ≤ c && c ≤ 122 || 65 ≤ c && c ≤ 90 || 48 ≤ c && c ≤ 57 || c = 95 || c = 46

/-- The comma in front of every entry but the first. -/
def separator (offset : ℕ) : Bytes := if offset = 0 then [] else [44]

def shapeText : List ℕ → Bytes
  | [] => []
  | d :: dims => decimalText d ++ dims.flatMap fun d => 44 :: decimalText d

/-- The value of an entry. -/
def objectText (dims : List ℕ) (start finish : ℕ) : Bytes :=
  bytes "\x7b\"dtype\":\"F32\",\"shape\":[" ++ shapeText dims ++
    bytes "],\"data_offsets\":[" ++ decimalText start ++ 44 :: decimalText finish ++
    bytes "]\x7d"

/-- An entry of the header. -/
def entryText (name : Bytes) (dims : List ℕ) (start finish : ℕ) : Bytes :=
  34 :: name ++ bytes "\":" ++ objectText dims start finish

/-- The header so far, the end of the data and the names in use. -/
structure HeaderState where
  header : Bytes
  offset : ℕ
  names : List Bytes

/-- The loop over the entries. Dimensions are printed after they were found to be positive. -/
def addEntry (state : HeaderState) (e : CheckpointTensor) : Option HeaderState := do
  guard (e.name ≠ [] ∧ e.name.all isNameByte = true ∧ e.name ∉ state.names ∧
    e.read.isSome = true ∧ e.name ≠ bytes "state")
  let elements ← checkpointElements e.shape
  guard (elements * 4 ≤ jointCheckpointMaxBytes - state.offset)
  return {
    header := state.header ++ separator state.offset ++
      entryText e.name (e.shape.map Int.toNat) state.offset (state.offset + elements * 4)
    offset := state.offset + elements * 4
    names := e.name :: state.names }

/-- The values of a tensor, which must have their shape still and be finite. -/
def payload (e : CheckpointTensor) : Option Bytes := do
  let values ← e.read
  let elements ← checkpointElements e.shape
  guard (values.length = elements)
  guard (values.all isFinite = true)
  return values.flatMap toBytes

/-- The spaces behind a header. -/
def padding (length : ℕ) : Bytes := List.replicate ((8 - length % 8) % 8) 32

/-- `write_joint_checkpoint` where no file operation fails: the bytes under `path`. -/
def writeJointCheckpoint (path : Bytes) (entries : List CheckpointTensor) (text : Bytes) :
    Option Bytes := do
  guard (path ≠ [] ∧ 0 ∉ path)
  guard (text ≠ [] ∧ text.length ≤ jointCheckpointMaxText)
  let state ← entries.foldlM addEntry ⟨bytes "\x7b", 0, []⟩
  let header := state.header ++ separator state.offset ++
    entryText (bytes "state") [text.length] state.offset (state.offset + text.length * 4) ++
    bytes "\x7d"
  let json := header ++ padding header.length
  guard (json.length + 8 + text.length * 4 ≤ jointCheckpointMaxBytes - state.offset)
  let data ← entries.mapM payload
  return littleEndian 8 json.length ++ json ++ data.flatten ++
    (text.map ofByte).flatMap toBytes

/-! ### The printed entries -/

theorem naturals_shapeText (dims : List ℕ) (r : Bytes) :
    Naturals (91 :: (shapeText dims ++ 93 :: r)) dims r := by
  refine ⟨_, rfl, ?_⟩
  cases dims with
  | nil => exact Or.inl ⟨Ws.refl _, rfl⟩
  | cons d dims =>
    refine Or.inr ⟨_, Ws.refl _, ?_⟩
    rw [shapeText, List.append_assoc]
    induction dims generalizing d with
    | nil => exact .last (natural_decimalText d _) (Ws.refl _)
    | cons d' dims ih =>
      rw [List.flatMap_cons, List.cons_append, List.cons_append, List.append_assoc]
      exact .cons (natural_decimalText d _) (Ws.refl _) (Ws.refl _) (ih d')

theorem tensorText_objectText (depth : ℕ) (dims : List ℕ) (start finish : ℕ) (r : Bytes) :
    TensorText depth (objectText dims start finish ++ r) ⟨dims, start, finish⟩ r := by
  have hdtype : Field depth (bytes "dtype") (34 :: (bytes "F32" ++ 34 :: (44 :: (34 ::
      (bytes "shape" ++ 34 :: 58 :: 91 :: (shapeText dims ++ 93 :: 44 :: 34 ::
        (bytes "data_offsets" ++ 34 :: 58 :: 91 :: (decimalText start ++ 44 ::
          (decimalText finish ++ 93 :: 125 :: r))))))))) (.dtype (bytes "F32")) _ :=
    ⟨rfl, str_quote (forall_mem_of_all (by decide)) _⟩
  have hshape : Field depth (bytes "shape") (91 :: (shapeText dims ++ 93 :: 44 :: 34 ::
      (bytes "data_offsets" ++ 34 :: 58 :: 91 :: (decimalText start ++ 44 ::
        (decimalText finish ++ 93 :: 125 :: r))))) (.shape dims) _ :=
    ⟨rfl, naturals_shapeText dims _⟩
  have hoffsets : Field depth (bytes "data_offsets") (91 :: (decimalText start ++ 44 ::
      (decimalText finish ++ 93 :: 125 :: r))) (.offsets start finish) (125 :: r) := by
    refine ⟨rfl, _, rfl, Or.inr ⟨_, Ws.refl _, ?_⟩⟩
    exact .cons (natural_decimalText start _) (Ws.refl _) (Ws.refl _)
      (.last (natural_decimalText finish _) (Ws.refl _))
  refine ⟨_, _, [(bytes "dtype", .dtype (bytes "F32")), (bytes "shape", .shape dims),
    (bytes "data_offsets", .offsets start finish)], ?_, Ws.refl _,
    .cons ⟨_, _, _, str_quote (forall_mem_of_all (by decide)) _, Ws.refl _, Ws.refl _, hdtype⟩ (Ws.refl _) (Ws.refl _)
      (.cons ⟨_, _, _, str_quote (forall_mem_of_all (by decide)) _, Ws.refl _, Ws.refl _, hshape⟩ (Ws.refl _)
        (Ws.refl _)
        (.last ⟨_, _, _, str_quote (forall_mem_of_all (by decide)) _, Ws.refl _, Ws.refl _, hoffsets⟩ (Ws.refl _))),
    ?_, by simp, by simp, by simp⟩
  · rw [objectText]
    simp only [List.append_assoc, List.cons_append]
    rfl
  · change [bytes "dtype", bytes "shape", bytes "data_offsets"].Nodup
    decide

/-! ### The layout of a written file -/

namespace CheckpointTensor

/-- The dimensions as natural numbers. -/
def dims (e : CheckpointTensor) : List ℕ := e.shape.map Int.toNat

/-- The number of bytes of the data. -/
def size (e : CheckpointTensor) : ℕ := 4 * e.dims.prod

def values (e : CheckpointTensor) : List UInt32 := e.read.getD []

/-- The data of a tensor. -/
def data (e : CheckpointTensor) : Bytes := e.values.flatMap toBytes

/-- A tensor that the writer takes. -/
structure Valid (e : CheckpointTensor) : Prop where
  name : e.name.all isNameByte = true
  rank : e.dims ≠ [] ∧ e.dims.length ≤ 4
  pos : ∀ n ∈ e.dims, 0 < n
  bounded : e.size ≤ jointCheckpointMaxBytes
  read : e.read = some e.values
  length : e.values.length = e.dims.prod

theorem Valid.length_data {e : CheckpointTensor} (h : e.Valid) : e.data.length = e.size := by
  rw [data, length_flatMap_toBytes, h.length, size]

theorem Valid.size_pos {e : CheckpointTensor} (h : e.Valid) : 0 < e.size := by
  have hprod := List.prod_pos_iff_forall_pos_nat.2 h.pos
  rw [size]
  omega

end CheckpointTensor

/-- The text as a tensor. -/
def stateTensor (text : Bytes) : CheckpointTensor :=
  ⟨bytes "state", [(text.length : ℤ)], some (text.map ofByte)⟩

/-- The entries of the header when the data start at this offset. -/
def layout : ℕ → List CheckpointTensor → List (Bytes × Option TensorInfo)
  | _, [] => []
  | offset, e :: es =>
    (e.name, if e.name = metadataKey then none else some ⟨e.dims, offset, offset + e.size⟩) ::
      layout (offset + e.size) es

/-- Printed entries, each with a comma behind it. -/
def membersText : ℕ → List CheckpointTensor → Bytes
  | _, [] => []
  | offset, e :: es =>
    entryText e.name e.dims offset (offset + e.size) ++ 44 :: membersText (offset + e.size) es

def totalSize (es : List CheckpointTensor) : ℕ := (es.map CheckpointTensor.size).sum

theorem totalSize_cons (e : CheckpointTensor) (es : List CheckpointTensor) :
    totalSize (e :: es) = e.size + totalSize es := by
  rw [totalSize, List.map_cons, List.sum_cons, totalSize]

theorem keys_layout (offset : ℕ) (es : List CheckpointTensor) :
    (layout offset es).map Prod.fst = es.map CheckpointTensor.name := by
  induction es generalizing offset with
  | nil => rfl
  | cons e es ih => rw [layout, List.map_cons, ih, List.map_cons]

theorem plain_of_isNameByte {c : UInt8} (h : isNameByte c = true) :
    32 ≤ c ∧ c ≠ 34 ∧ c ≠ 92 := by
  have hall : ∀ i < 256, isNameByte (UInt8.ofNat i) = true →
      32 ≤ UInt8.ofNat i ∧ UInt8.ofNat i ≠ 34 ∧ UInt8.ofNat i ≠ 92 := by
    decide +kernel
  have hc := hall c.toNat c.toNat_lt
  rw [UInt8.ofNat_toNat] at hc
  exact hc h

/-- An entry is read as metadata if it has the name of metadata, and as a tensor otherwise. -/
theorem keyed_entryText {name : Bytes} (hname : name.all isNameByte = true) (dims : List ℕ)
    (start finish : ℕ) (r : Bytes) :
    Keyed (Entry maxJsonDepth) (entryText name dims start finish ++ r)
      (name, if name = metadataKey then none else some ⟨dims, start, finish⟩) r := by
  refine ⟨58 :: (objectText dims start finish ++ r), _, _, ?_, Ws.refl _, Ws.refl _, ?_⟩
  · have hstr := str_quote (fun c hc => plain_of_isNameByte (List.all_eq_true.1 hname c hc))
      (58 :: (objectText dims start finish ++ r))
    convert hstr using 1
    rw [entryText]
    simp only [List.append_assoc, List.cons_append]
    rfl
  · by_cases hmetadata : name = metadataKey
    · have hobject := obj_of_tensorText (tensorText_objectText 0 dims start finish r)
      rw [if_pos hmetadata]
      exact ⟨hmetadata, hobject.mono (Value.mono (by decide))⟩
    · rw [if_neg hmetadata]
      exact ⟨hmetadata, tensorText_objectText _ dims start finish r⟩

theorem items_membersText {es : List CheckpointTensor} {last : CheckpointTensor}
    (h : ∀ e ∈ es ++ [last], e.Valid) (offset : ℕ) (r : Bytes) :
    Items (Keyed (Entry maxJsonDepth)) 125
      (membersText offset es ++ (entryText last.name last.dims (offset + totalSize es)
        (offset + totalSize es + last.size) ++ 125 :: r))
      (layout offset (es ++ [last])) r := by
  induction es generalizing offset with
  | nil =>
    have hlast := h last (by simp)
    exact .last (keyed_entryText hlast.name _ _ _ _) (Ws.refl _)
  | cons e es ih =>
    rw [List.cons_append, List.forall_mem_cons] at h
    rw [membersText, List.append_assoc, List.cons_append, List.cons_append, layout, totalSize_cons,
      ← Nat.add_assoc]
    exact .cons (keyed_entryText h.1.name _ _ _ _) (Ws.refl _) (Ws.refl _) (ih h.2 _)

/-! ### What the writer accepts -/

theorem foldlM_elements {shape : List ℤ} {n result : ℕ} (hn : 4 * n ≤ jointCheckpointMaxBytes)
    (h : shape.foldlM (fun n d =>
      if d ≤ 0 ∨ jointCheckpointMaxBytes / 4 / d.toNat < n then none else some (n * d.toNat)) n =
        some result) :
    result = n * (shape.map Int.toNat).prod ∧ (∀ m ∈ shape.map Int.toNat, 0 < m) ∧
      4 * result ≤ jointCheckpointMaxBytes := by
  induction shape generalizing n with
  | nil =>
    obtain rfl := Option.some.inj h
    exact ⟨by simp, by simp, hn⟩
  | cons d shape ih =>
    rw [List.foldlM_cons] at h
    obtain ⟨next, hstep, hrest⟩ := Option.bind_eq_some_iff.1 h
    split_ifs at hstep with hd
    obtain rfl := Option.some.inj hstep
    rw [not_or, not_lt] at hd
    have hpos : 0 < d.toNat := by omega
    have hle : n * d.toNat ≤ jointCheckpointMaxBytes / 4 := (Nat.le_div_iff_mul_le hpos).1 hd.2
    obtain ⟨hresult, hall, hbound⟩ := ih (by omega) hrest
    rw [List.map_cons, List.prod_cons, List.forall_mem_cons, ← Nat.mul_assoc]
    exact ⟨hresult, ⟨hpos, hall⟩, hbound⟩

theorem checkpointElements_eq_some {e : CheckpointTensor} {n : ℕ}
    (h : checkpointElements e.shape = some n) :
    n = e.dims.prod ∧ (e.dims ≠ [] ∧ e.dims.length ≤ 4) ∧ (∀ m ∈ e.dims, 0 < m) ∧
      e.size ≤ jointCheckpointMaxBytes := by
  rw [checkpointElements] at h
  split_ifs at h with hrank
  obtain ⟨hn, hpos, hbound⟩ := foldlM_elements (by decide) h
  rw [Nat.one_mul] at hn
  rw [not_or, not_lt] at hrank
  rw [hn] at hbound
  refine ⟨hn, ⟨?_, ?_⟩, hpos, hbound⟩
  · rw [CheckpointTensor.dims, Ne, List.map_eq_nil_iff]
    exact hrank.1
  · rw [CheckpointTensor.dims, List.length_map]
    exact hrank.2

/-- An entry that was added to a header. -/
theorem addEntry_eq_some {state state' : HeaderState} {e : CheckpointTensor}
    (h : addEntry state e = some state') :
    (e.name.all isNameByte = true ∧ e.name ∉ state.names ∧ e.name ≠ bytes "state") ∧
      ((e.dims ≠ [] ∧ e.dims.length ≤ 4) ∧ (∀ m ∈ e.dims, 0 < m) ∧
        e.size ≤ jointCheckpointMaxBytes) ∧
      state' = {
        header := state.header ++ separator state.offset ++
          entryText e.name e.dims state.offset (state.offset + e.size)
        offset := state.offset + e.size
        names := e.name :: state.names } := by
  obtain ⟨⟨⟩, hname, h⟩ := Option.bind_eq_some_iff.1 h
  obtain ⟨n, helements, h⟩ := Option.bind_eq_some_iff.1 h
  obtain ⟨⟨⟩, hsize, h⟩ := Option.bind_eq_some_iff.1 h
  obtain ⟨rfl, hdims⟩ := checkpointElements_eq_some helements
  rw [Option.guard_eq_some'] at hname hsize
  obtain rfl := Option.some.inj h
  refine ⟨⟨hname.2.1, hname.2.2.1, hname.2.2.2.2⟩, hdims, ?_⟩
  rw [Nat.mul_comm e.dims.prod 4]
  rfl

theorem payload_eq_some {e : CheckpointTensor} {d : Bytes} (h : payload e = some d) :
    d = e.data ∧ e.read = some e.values ∧ e.values.length = e.dims.prod := by
  obtain ⟨values, hread, h⟩ := Option.bind_eq_some_iff.1 h
  obtain ⟨n, helements, h⟩ := Option.bind_eq_some_iff.1 h
  obtain ⟨⟨⟩, hlength, h⟩ := Option.bind_eq_some_iff.1 h
  obtain ⟨⟨⟩, -, h'⟩ := Option.bind_eq_some_iff.1 h
  rw [Option.guard_eq_some'] at hlength
  obtain ⟨rfl, -⟩ := checkpointElements_eq_some helements
  have hd := Option.some.inj h'
  have hvalues : e.values = values := by rw [CheckpointTensor.values, hread, Option.getD_some]
  refine ⟨?_, ?_, ?_⟩
  · rw [CheckpointTensor.data, hvalues]
    exact hd.symm
  · rw [hvalues, hread]
  · rw [hvalues, hlength]

theorem mapM_payload_eq_some {es : List CheckpointTensor} {ds : List Bytes}
    (h : es.mapM payload = some ds) :
    ds.flatten = es.flatMap CheckpointTensor.data ∧
      ∀ e ∈ es, e.read = some e.values ∧ e.values.length = e.dims.prod := by
  induction es generalizing ds with
  | nil =>
    obtain rfl := Option.some.inj h
    exact ⟨rfl, by simp⟩
  | cons e es ih =>
    rw [List.mapM_cons] at h
    obtain ⟨d, hd, h⟩ := Option.bind_eq_some_iff.1 h
    obtain ⟨ds, hds, h⟩ := Option.bind_eq_some_iff.1 h
    obtain rfl := Option.some.inj h
    obtain ⟨rfl, hvalues⟩ := payload_eq_some hd
    obtain ⟨hdata, hall⟩ := ih hds
    rw [List.flatten_cons, List.flatMap_cons, hdata]
    exact ⟨rfl, List.forall_mem_cons.2 ⟨hvalues, hall⟩⟩

theorem separator_of_pos {offset : ℕ} (h : 0 < offset) : separator offset = [44] :=
  if_neg (Nat.ne_of_gt h)

/-- **The header loop.** Behind its separator the header continues with the printed entries. -/
theorem foldlM_addEntry {es : List CheckpointTensor} {state state' : HeaderState}
    (h : es.foldlM addEntry state = some state') :
    state'.header ++ separator state'.offset =
        state.header ++ separator state.offset ++ membersText state.offset es ∧
      state'.offset = state.offset + totalSize es ∧
      (es.map CheckpointTensor.name).Nodup ∧
      ∀ e ∈ es, (e.name.all isNameByte = true ∧ e.name ∉ state.names ∧ e.name ≠ bytes "state") ∧
        (e.dims ≠ [] ∧ e.dims.length ≤ 4) ∧ (∀ m ∈ e.dims, 0 < m) ∧
          e.size ≤ jointCheckpointMaxBytes := by
  induction es generalizing state with
  | nil =>
    obtain rfl := Option.some.inj h
    exact ⟨(List.append_nil _).symm, rfl, List.nodup_nil, by simp⟩
  | cons e es ih =>
    rw [List.foldlM_cons] at h
    obtain ⟨next, hadd, hrest⟩ := Option.bind_eq_some_iff.1 h
    obtain ⟨hname, hdims, rfl⟩ := addEntry_eq_some hadd
    obtain ⟨htext, hoffset, hdistinct, hall⟩ := ih hrest
    have hsize : 0 < e.size := by
      have hprod := List.prod_pos_iff_forall_pos_nat.2 hdims.2.1
      rw [CheckpointTensor.size]
      omega
    refine ⟨?_, ?_, ?_, ?_⟩
    · rw [htext, separator_of_pos (Nat.lt_of_lt_of_le hsize (Nat.le_add_left _ _)), membersText]
      simp only [List.append_assoc, List.singleton_append]
    · rw [hoffset, totalSize_cons, Nat.add_assoc]
    · rw [List.map_cons, List.nodup_cons]
      refine ⟨?_, hdistinct⟩
      intro hmem
      obtain ⟨e', he', heq⟩ := List.mem_map.1 hmem
      exact (hall e' he').1.2.1 (heq ▸ List.mem_cons_self)
    · refine List.forall_mem_cons.2 ⟨⟨hname, hdims⟩, ?_⟩
      intro e' he'
      obtain ⟨⟨hchars, hfresh, hstate⟩, hdims'⟩ := hall e' he'
      exact ⟨⟨hchars, fun hmem => hfresh (List.mem_cons_of_mem _ hmem), hstate⟩, hdims'⟩

/-! ### The size of a header -/

/-- The bytes of a printed entry: 48 of punctuation and fixed words, less the comma that the
first dimension does without. -/
def entrySize (name : Bytes) (dims : List ℕ) (start finish : ℕ) : ℕ :=
  47 + name.length + (dims.map fun d => (decimalText d).length + 1).sum +
    (decimalText start).length + (decimalText finish).length

/-- The bytes of printed entries and of a comma behind each. -/
def membersSize : ℕ → List CheckpointTensor → ℕ
  | _, [] => 0
  | offset, e :: es =>
    entrySize e.name e.dims offset (offset + e.size) + 1 + membersSize (offset + e.size) es

/-- The bytes of the header of a checkpoint. -/
def headerSize (entries : List CheckpointTensor) (text : Bytes) : ℕ :=
  2 + membersSize 0 entries +
    entrySize (bytes "state") [text.length] (totalSize entries)
      (totalSize entries + 4 * text.length)

theorem length_shapeText {dims : List ℕ} (h : dims ≠ []) :
    (shapeText dims).length + 1 = (dims.map fun d => (decimalText d).length + 1).sum := by
  cases dims with
  | nil => exact (h rfl).elim
  | cons d dims =>
    rw [shapeText, List.length_append, List.length_flatMap, List.map_cons, List.sum_cons]
    simp only [List.length_cons]
    omega

theorem length_entryText {name : Bytes} {dims : List ℕ} (h : dims ≠ []) (start finish : ℕ) :
    (entryText name dims start finish).length = entrySize name dims start finish := by
  have hshape := length_shapeText h
  have hcolon : (bytes "\":").length = 2 := by decide
  have hopen : (bytes "\x7b\"dtype\":\"F32\",\"shape\":[").length = 24 := by decide
  have hmiddle : (bytes "],\"data_offsets\":[").length = 18 := by decide
  have hclose : (bytes "]\x7d").length = 2 := by decide
  rw [entryText, objectText, entrySize, ← hshape]
  simp only [List.length_append, List.length_cons, hcolon, hopen, hmiddle, hclose]
  omega

theorem length_membersText {es : List CheckpointTensor} (h : ∀ e ∈ es, e.Valid) (offset : ℕ) :
    (membersText offset es).length = membersSize offset es := by
  induction es generalizing offset with
  | nil => rfl
  | cons e es ih =>
    rw [List.forall_mem_cons] at h
    rw [membersText, List.length_append, List.length_cons, length_entryText h.1.rank.1, ih h.2,
      membersSize]
    omega

/-! ### Written files -/

/-- The header of a checkpoint in front of its padding. -/
def checkpointHeader (entries : List CheckpointTensor) (text : Bytes) : Bytes :=
  123 :: (membersText 0 entries ++ (entryText (bytes "state") [text.length] (totalSize entries)
    (totalSize entries + 4 * text.length) ++ [125]))

def paddedHeader (entries : List CheckpointTensor) (text : Bytes) : Bytes :=
  checkpointHeader entries text ++ padding (checkpointHeader entries text).length

/-- What the writer has checked, and the file that it leaves. -/
structure Written (entries : List CheckpointTensor) (text file : Bytes) : Prop where
  valid : ∀ e ∈ entries ++ [stateTensor text], e.Valid
  distinct : ((entries ++ [stateTensor text]).map CheckpointTensor.name).Nodup
  file : file = littleEndian 8 (paddedHeader entries text).length ++ paddedHeader entries text ++
    (entries ++ [stateTensor text]).flatMap CheckpointTensor.data
  bounded : 8 + (paddedHeader entries text).length + totalSize (entries ++ [stateTensor text]) ≤
    jointCheckpointMaxBytes

theorem dims_stateTensor (text : Bytes) : (stateTensor text).dims = [text.length] := by
  rw [CheckpointTensor.dims, stateTensor, List.map_singleton, Int.toNat_natCast]

theorem size_stateTensor (text : Bytes) : (stateTensor text).size = 4 * text.length := by
  rw [CheckpointTensor.size, dims_stateTensor, List.prod_singleton]

theorem valid_stateTensor {text : Bytes} (hne : text ≠ [])
    (hlength : text.length ≤ jointCheckpointMaxText) : (stateTensor text).Valid := by
  have hpos := List.length_pos_iff.2 hne
  refine ⟨?_, ?_, ?_, ?_, rfl, ?_⟩
  · change (bytes "state").all isNameByte = true
    decide
  · rw [dims_stateTensor]
    simp
  · rw [dims_stateTensor]
    simpa using hpos
  · rw [size_stateTensor]
    rw [jointCheckpointMaxText] at hlength
    rw [jointCheckpointMaxBytes]
    omega
  · rw [dims_stateTensor, List.prod_singleton, CheckpointTensor.values, stateTensor,
      Option.getD_some, List.length_map]

theorem metadataKey_notMem_all (text : Bytes) {entries : List CheckpointTensor}
    (h : metadataKey ∉ entries.map CheckpointTensor.name) :
    metadataKey ∉ (entries ++ [stateTensor text]).map CheckpointTensor.name := by
  have hstate : metadataKey ≠ (stateTensor text).name := by
    change metadataKey ≠ bytes "state"
    decide
  rw [List.map_append, List.mem_append, not_or]
  exact ⟨h, by simpa using hstate⟩

theorem totalSize_append (es es' : List CheckpointTensor) :
    totalSize (es ++ es') = totalSize es + totalSize es' := by
  rw [totalSize, List.map_append, List.sum_append, totalSize, totalSize]

theorem totalSize_all (entries : List CheckpointTensor) (text : Bytes) :
    totalSize (entries ++ [stateTensor text]) = totalSize entries + 4 * text.length := by
  rw [totalSize_append, totalSize_cons, size_stateTensor]
  rfl

/-- **What the writer has done.** -/
theorem written_of_eq_some {path text file : Bytes} {entries : List CheckpointTensor}
    (h : writeJointCheckpoint path entries text = some file) : Written entries text file := by
  obtain ⟨⟨⟩, -, h⟩ := Option.bind_eq_some_iff.1 h
  obtain ⟨⟨⟩, htext, h⟩ := Option.bind_eq_some_iff.1 h
  obtain ⟨state, hfold, h⟩ := Option.bind_eq_some_iff.1 h
  obtain ⟨⟨⟩, hsize, h⟩ := Option.bind_eq_some_iff.1 h
  obtain ⟨ds, hdata, h⟩ := Option.bind_eq_some_iff.1 h
  rw [Option.guard_eq_some'] at htext hsize
  obtain ⟨hheader, hoffset, hdistinct, hall⟩ := foldlM_addEntry hfold
  obtain ⟨hflatten, hread⟩ := mapM_payload_eq_some hdata
  have hjson : state.header ++ separator state.offset ++
      entryText (bytes "state") [text.length] state.offset (state.offset + text.length * 4) ++
        bytes "\x7d" = checkpointHeader entries text := by
    rw [hheader, hoffset, Nat.zero_add, Nat.mul_comm text.length, checkpointHeader]
    simp only [List.append_assoc]
    rfl
  rw [hjson, ← paddedHeader] at hsize h
  have hfile := Option.some.inj h
  refine ⟨?_, ?_, ?_, ?_⟩
  · rw [List.forall_mem_append]
    refine ⟨?_, by simpa using valid_stateTensor htext.1 htext.2⟩
    intro e he
    obtain ⟨⟨hname, -, -⟩, hrank, hpos, hbounded⟩ := hall e he
    obtain ⟨hvalues, hlength⟩ := hread e he
    exact ⟨hname, hrank, hpos, hbounded, hvalues, hlength⟩
  · rw [List.map_append, List.nodup_append]
    refine ⟨hdistinct, by simp, ?_⟩
    rintro name hname _ hstate rfl
    obtain ⟨e, he, rfl⟩ := List.mem_map.1 hname
    exact (hall e he).1.2.2 (List.mem_singleton.1 hstate)
  · rw [← hfile, hflatten, List.flatMap_append, List.flatMap_cons, List.flatMap_nil,
      List.append_nil]
    simp only [List.append_assoc]
    rfl
  · rw [totalSize_all]
    rw [hoffset] at hsize
    change _ ≤ _ - (0 + totalSize entries) at hsize
    omega

/-! ### Reading a written file -/

section Layout

variable {es : List CheckpointTensor}

/-- The entries of a layout describe tensors of the list. -/
theorem exists_of_mem_layout {offset : ℕ} {info : TensorInfo}
    (h : info ∈ (layout offset es).filterMap Prod.snd) :
    ∃ e ∈ es, ∃ start, info = ⟨e.dims, start, start + e.size⟩ ∧ offset ≤ start ∧
      start + e.size ≤ offset + totalSize es := by
  induction es generalizing offset with
  | nil => cases h
  | cons e es ih =>
    have hrest : info ∈ (layout (offset + e.size) es).filterMap Prod.snd →
        ∃ e' ∈ e :: es, ∃ start, info = ⟨e'.dims, start, start + e'.size⟩ ∧ offset ≤ start ∧
          start + e'.size ≤ offset + totalSize (e :: es) := by
      intro hmem
      obtain ⟨e', he', start, hinfo, hle, hend⟩ := ih hmem
      rw [totalSize_cons]
      exact ⟨e', List.mem_cons_of_mem _ he', start, hinfo, by omega, by omega⟩
    rw [layout, List.filterMap_cons] at h
    split_ifs at h with hname
    · exact hrest h
    · dsimp only at h
      rcases List.mem_cons.1 h with rfl | hmem
      · rw [totalSize_cons]
        exact ⟨e, List.mem_cons_self, offset, rfl, Nat.le_refl _, by omega⟩
      · exact hrest hmem

/-- Without metadata the data ranges lie end to end. -/
theorem tiles_layout (h : metadataKey ∉ es.map CheckpointTensor.name) (offset : ℕ) :
    Tiles offset (dataRanges (layout offset es)) (offset + totalSize es) := by
  induction es generalizing offset with
  | nil => exact rfl
  | cons e es ih =>
    rw [List.map_cons, List.mem_cons, not_or] at h
    rw [layout, if_neg (Ne.symm h.1), totalSize_cons, ← Nat.add_assoc]
    exact ⟨rfl, Nat.le_add_right _ _, ih h.2 _⟩

def rangesSize (ranges : List (ℕ × ℕ)) : ℕ := (ranges.map fun range => range.2 - range.1).sum

/-- An entry that is taken for metadata leaves its data without a range. -/
theorem rangesSize_layout_le (offset : ℕ) :
    rangesSize (dataRanges (layout offset es)) ≤ totalSize es := by
  induction es generalizing offset with
  | nil => exact Nat.le_refl _
  | cons e es ih =>
    have hrest := ih (offset + e.size)
    rw [layout, totalSize_cons]
    split_ifs with hname
    · exact Nat.le_trans hrest (Nat.le_add_left _ _)
    · change offset + e.size - offset +
        rangesSize (dataRanges (layout (offset + e.size) es)) ≤ _
      omega

theorem rangesSize_layout_lt (hpos : ∀ e ∈ es, 0 < e.size)
    (h : metadataKey ∈ es.map CheckpointTensor.name) (offset : ℕ) :
    rangesSize (dataRanges (layout offset es)) < totalSize es := by
  induction es generalizing offset with
  | nil => cases h
  | cons e es ih =>
    rw [List.forall_mem_cons] at hpos
    rw [layout, totalSize_cons]
    split_ifs with hname
    · have hle := @rangesSize_layout_le es (offset + e.size)
      change rangesSize (dataRanges (layout (offset + e.size) es)) < _
      omega
    · rw [List.map_cons, List.mem_cons] at h
      have hlt := ih hpos.2 (h.resolve_left fun heq => hname heq.symm) (offset + e.size)
      change offset + e.size - offset +
        rangesSize (dataRanges (layout (offset + e.size) es)) < _
      omega

theorem rangesSize_of_tiles {ranges : List (ℕ × ℕ)} {start finish : ℕ}
    (h : Tiles start ranges finish) : start + rangesSize ranges = finish := by
  induction ranges generalizing start with
  | nil => exact h
  | cons range ranges ih =>
    obtain ⟨rfl, hle, hrest⟩ := h
    have hrest := ih hrest
    change range.1 + (range.2 - range.1 + rangesSize ranges) = finish
    omega

theorem rangesSize_perm {ranges ranges' : List (ℕ × ℕ)} (h : ranges.Perm ranges') :
    rangesSize ranges = rangesSize ranges' := (h.map _).sum_eq

theorem stridesFit_of_pos {dims : List ℕ} (hpos : ∀ n ∈ dims, 0 < n)
    (h : 4 * dims.prod < 2 ^ 63) : StridesFit dims := by
  induction dims with
  | nil => exact trivial
  | cons d dims ih =>
    rw [List.forall_mem_cons] at hpos
    rw [List.prod_cons] at h
    have hle := Nat.le_mul_of_pos_left dims.prod hpos.1
    exact ⟨ih hpos.2 (by omega), by omega, by omega⟩

end Layout

section Written

variable {entries : List CheckpointTensor} {text file : Bytes}

theorem Written.parts (h : Written entries text file) :
    headerText file = paddedHeader entries text ∧
      dataStart file = 8 + (paddedHeader entries text).length ∧
      dataSize file = totalSize (entries ++ [stateTensor text]) ∧
      file.length = 8 + (paddedHeader entries text).length +
        totalSize (entries ++ [stateTensor text]) := by
  have hlt : (paddedHeader entries text).length < 2 ^ 64 := by
    have hbounded := h.bounded
    rw [jointCheckpointMaxBytes] at hbounded
    omega
  have hdata : ((entries ++ [stateTensor text]).flatMap CheckpointTensor.data).length =
      totalSize (entries ++ [stateTensor text]) := by
    rw [List.length_flatMap, totalSize]
    congr 1
    exact List.map_congr_left fun e he => (h.valid e he).length_data
  rw [← hdata]
  exact file_parts hlt h.file

/-- The header of a written file. -/
theorem Written.headerText (h : Written entries text file) :
    HeaderText maxJsonDepth (headerText file) (layout 0 (entries ++ [stateTensor text])) := by
  have hitems := items_membersText h.valid 0 (padding (checkpointHeader entries text).length)
  rw [Nat.zero_add, dims_stateTensor, size_stateTensor] at hitems
  refine ⟨?_, _, _, ?_, ?_, Or.inr ⟨_, Ws.refl _, hitems⟩⟩
  · rw [keys_layout]
    exact h.distinct
  · rw [h.parts.1, paddedHeader, checkpointHeader]
    simp only [List.append_assoc, List.cons_append, List.nil_append]
    exact Ws.refl _
  · refine ⟨_, (List.append_nil _).symm, ?_⟩
    rw [padding, List.all_replicate]
    simp [isSpace]

/-- The tensors of a written file are within the limits of the loader. -/
theorem Written.admissible (h : Written entries text file) :
    ∀ info ∈ (layout 0 (entries ++ [stateTensor text])).filterMap Prod.snd,
      info.Fits (dataStart file) ∧ info.Sized (dataSize file) := by
  obtain ⟨-, hstart, hdata, -⟩ := h.parts
  have hbounded := h.bounded
  rw [jointCheckpointMaxBytes] at hbounded
  intro info hinfo
  obtain ⟨e, he, start, rfl, -, hend⟩ := exists_of_mem_layout hinfo
  obtain ⟨hname, hrank, hpos, hbytes, -, -⟩ := h.valid e he
  rw [CheckpointTensor.size, jointCheckpointMaxBytes] at hbytes
  refine ⟨⟨Nat.le_trans hrank.2 (by decide), ?_, stridesFit_of_pos hpos ?_, ?_, ?_, ?_⟩, ?_, ?_,
    rfl⟩
  · intro n hn
    have hdvd := Nat.le_of_dvd (List.prod_pos_iff_forall_pos_nat.2 hpos) (List.dvd_prod hn)
    omega
  all_goals
    dsimp only
    omega

theorem Written.describes (h : Written entries text file)
    (hmetadata : metadataKey ∉ entries.map CheckpointTensor.name)
    (hsize : (paddedHeader entries text).length ≤ maxHeaderSize) :
    Describes file (layout 0 (entries ++ [stateTensor text])) := by
  obtain ⟨-, hstart, hdata, hlength⟩ := h.parts
  have hheader : headerLength file = (paddedHeader entries text).length := by
    rw [dataStart] at hstart
    omega
  refine ⟨⟨?_, ?_⟩, ?_, fun info hinfo => (h.admissible info hinfo).1,
    fun info hinfo => (h.admissible info hinfo).2.size, ?_⟩
  · rw [hheader, paddedHeader, checkpointHeader, List.cons_append, List.length_cons]
    omega
  · rw [hheader]
    exact hsize
  · omega
  · have htiles := tiles_layout (metadataKey_notMem_all text hmetadata) 0
    rw [Nat.zero_add] at htiles
    rw [hdata]
    exact ⟨_, List.Perm.refl _, htiles⟩

/-- A file in which an entry is taken for metadata is refused: the data of that entry are in no
range. -/
theorem Written.load_eq_none_of_metadata (h : Written entries text file)
    (hmetadata : metadataKey ∈ entries.map CheckpointTensor.name) : load file = none := by
  rw [load, ← Option.not_isSome_iff_eq_none, parseHeader_isSome_iff]
  rintro (⟨entries', htext, hdescribes⟩ | ⟨entries', hopen, -⟩)
  · have hread := parseHeaderText_eq_some_iff.2
      ⟨entries', rfl, hdescribes.admissible, Or.inl htext⟩
    rw [parseHeaderText_eq_some_iff.2 ⟨_, rfl, forall_admissible_iff.2 h.admissible,
      Or.inl h.headerText⟩] at hread
    have hranges := congrArg (List.filterMap fun entry => entry.2.range?) (Option.some.inj hread)
    rw [filterMap_range_keptEntries, filterMap_range_keptEntries] at hranges
    obtain ⟨order, hperm, htiles⟩ := hdescribes.tiles
    have hsize := rangesSize_of_tiles htiles
    have hmetadata' : metadataKey ∈ (entries ++ [stateTensor text]).map CheckpointTensor.name := by
      rw [List.map_append]
      exact List.mem_append_left _ hmetadata
    have hlt := rangesSize_layout_lt (fun e he => (h.valid e he).size_pos) hmetadata' 0
    rw [rangesSize_perm hperm, ← hranges, h.parts.2.2.1] at hsize
    omega
  · exact not_objectText_of_openText hopen (objectText_of_headerText h.headerText)

theorem Written.load_eq_none_of_size (h : Written entries text file)
    (hsize : maxHeaderSize < (paddedHeader entries text).length) : load file = none := by
  have hheader : headerLength file = (paddedHeader entries text).length := by
    have hstart := h.parts.2.1
    rw [dataStart] at hstart
    omega
  rw [load, ← Option.not_isSome_iff_eq_none, parseHeader_isSome_iff]
  rintro (⟨entries', -, hdescribes⟩ | ⟨entries', -, hdescribes⟩)
  all_goals
    have hle := hdescribes.length.2
    omega

/-! ### The round trip -/

/-- Name, shape and values of the tensors of a loaded file. -/
def contents (file : Bytes) (tensors : List Tensor) :
    List (Bytes × List ℕ × Option (List UInt32)) :=
  tensors.map fun t => (t.name, t.shape, (t.data? file).map ofBytes)

/-- The loader gives back the tensors, and the text as the values of one more. -/
def RoundTrips (entries : List CheckpointTensor) (text file : Bytes) : Prop :=
  ∃ tensors state, load file = some tensors ∧
    loadSnapshot jointCheckpointMaxBytes file = some tensors ∧
    contents file tensors = (entries.map fun e => (e.name, e.shape.map Int.toNat, e.read)) ++
      [(bytes "state", [text.length], some state)] ∧
    state.map FloatWord.value = text.map fun b => (b.toNat : ℚ)

/-- Each tensor of a layout is read from where its data stand. -/
theorem contents_layout {es : List CheckpointTensor} (hvalid : ∀ e ∈ es, e.Valid)
    (hmetadata : metadataKey ∉ es.map CheckpointTensor.name) {start offset : ℕ}
    (hdrop : file.drop (start + offset) = es.flatMap CheckpointTensor.data)
    (hlength : file.length = start + offset + totalSize es) :
    contents file ((keptEntries start (layout offset es)).filterMap fun entry => entry.2.tensor?) =
      es.map fun e => (e.name, e.dims, e.read) := by
  induction es generalizing offset with
  | nil => rfl
  | cons e es ih =>
    rw [List.forall_mem_cons] at hvalid
    rw [List.map_cons, List.mem_cons, not_or] at hmetadata
    rw [List.flatMap_cons] at hdrop
    rw [totalSize_cons] at hlength
    have hrest : contents file ((keptEntries start (layout (offset + e.size) es)).filterMap
        fun entry => entry.2.tensor?) = es.map fun e => (e.name, e.dims, e.read) := by
      refine ih hvalid.2 hmetadata.2 ?_ ?_
      · rw [← Nat.add_assoc, ← List.drop_drop, hdrop, List.drop_left' hvalid.1.length_data]
      · omega
    have hdata : (TensorInfo.tensor e.name start ⟨e.dims, offset, offset + e.size⟩).data? file =
        some e.data := by
      have hinside : ¬(file.length < start + offset ∨ file.length - (start + offset) < e.size) := by
        omega
      rw [Tensor.data?, TensorInfo.tensor]
      dsimp only
      rw [← CheckpointTensor.size, if_neg hinside, hdrop,
        List.take_left' hvalid.1.length_data]
    rw [layout, if_neg (Ne.symm hmetadata.1), List.map_cons, ← hrest]
    change (e.name, e.dims, (Tensor.data? file _).map ofBytes) :: _ = _
    rw [hdata, Option.map_some, CheckpointTensor.data, ofBytes_flatMap_toBytes, ← hvalid.1.read]
    rfl

theorem Written.length_paddedHeader_le_iff (h : Written entries text file) :
    (paddedHeader entries text).length ≤ maxHeaderSize ↔
      headerSize entries text ≤ maxHeaderSize := by
  have hentries : ∀ e ∈ entries, e.Valid := fun e he => h.valid e (List.mem_append_left _ he)
  have hlength : (checkpointHeader entries text).length = headerSize entries text := by
    rw [checkpointHeader, List.length_cons, List.length_append, List.length_append,
      length_membersText hentries, length_entryText (List.cons_ne_nil _ _), headerSize,
      List.length_singleton]
    omega
  rw [paddedHeader, List.length_append, hlength, padding, List.length_replicate, maxHeaderSize]
  omega

theorem Written.roundTrips (h : Written entries text file)
    (hmetadata : metadataKey ∉ entries.map CheckpointTensor.name)
    (hsize : headerSize entries text ≤ maxHeaderSize) : RoundTrips entries text file := by
  obtain ⟨-, hstart, hdata, hlength⟩ := h.parts
  have hload := parseHeader_eq_some (Or.inl h.headerText)
    (h.describes hmetadata (h.length_paddedHeader_le_iff.2 hsize))
  refine ⟨_, text.map ofByte, hload, ?_, ?_, ?_⟩
  · have hbounded := h.bounded
    exact Option.bind_eq_some_iff.2 ⟨(), (Option.guard_eq_some' ()).2 ⟨by omega, by omega⟩, hload⟩
  · have hdrop : file.drop (dataStart file + 0) =
        (entries ++ [stateTensor text]).flatMap CheckpointTensor.data := by
      rw [hstart, h.file, Nat.add_zero]
      refine List.drop_left' ?_
      rw [List.length_append, length_littleEndian]
    rw [contents_layout h.valid (metadataKey_notMem_all text hmetadata) hdrop (by omega),
      List.map_append, List.map_singleton, dims_stateTensor]
    rfl
  · rw [List.map_map]
    exact List.map_congr_left fun b _ => value_ofByte b

/-- **The round trip.** The loader gives back a checkpoint exactly if no tensor has the name of the
metadata entry and the header is not longer than the loader reads. -/
theorem writeJointCheckpoint_roundTrips_iff {path text file : Bytes}
    {entries : List CheckpointTensor} (h : writeJointCheckpoint path entries text = some file) :
    RoundTrips entries text file ↔
      metadataKey ∉ entries.map CheckpointTensor.name ∧
        headerSize entries text ≤ maxHeaderSize := by
  have hwritten := written_of_eq_some h
  constructor
  · rintro ⟨tensors, state, hload, -⟩
    constructor
    · intro hmetadata
      rw [hwritten.load_eq_none_of_metadata hmetadata] at hload
      cases hload
    · rw [← hwritten.length_paddedHeader_le_iff]
      by_contra hsize
      rw [hwritten.load_eq_none_of_size (Nat.lt_of_not_le hsize)] at hload
      cases hload
  · rintro ⟨hmetadata, hsize⟩
    exact hwritten.roundTrips hmetadata hsize

end Written

/-- One tensor of one value, and a text of one byte. -/
def sampleTensor (name : Bytes) : CheckpointTensor := ⟨name, [1], some [0]⟩

theorem writeJointCheckpoint_roundTrips_sample :
    ∃ file, writeJointCheckpoint (bytes "a") [sampleTensor (bytes "w")] (bytes "x") = some file ∧
      RoundTrips [sampleTensor (bytes "w")] (bytes "x") file := by
  have hwrite : (writeJointCheckpoint (bytes "a") [sampleTensor (bytes "w")]
      (bytes "x")).isSome = true := by decide +kernel
  obtain ⟨file, hfile⟩ := Option.isSome_iff_exists.1 hwrite
  exact ⟨file, hfile, (writeJointCheckpoint_roundTrips_iff hfile).2 ⟨by decide, by decide⟩⟩

theorem not_roundTrips_metadata :
    ∃ file, writeJointCheckpoint (bytes "a") [sampleTensor metadataKey] (bytes "x") = some file ∧
      ¬RoundTrips [sampleTensor metadataKey] (bytes "x") file := by
  have hwrite : (writeJointCheckpoint (bytes "a") [sampleTensor metadataKey]
      (bytes "x")).isSome = true := by decide +kernel
  obtain ⟨file, hfile⟩ := Option.isSome_iff_exists.1 hwrite
  refine ⟨file, hfile, ?_⟩
  rintro ⟨tensors, state, hload, -⟩
  rw [(written_of_eq_some hfile).load_eq_none_of_metadata (by decide)] at hload
  cases hload

end Resonantia.Training
