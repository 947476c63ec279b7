import Mathlib.Algebra.BigOperators.Group.List.Basic
import Resonantia.Io.SafetensorsScan

/-!
# The safetensors format and its loader

The format of safetensors files with F32 tensors, and what the loader accepts of it. The loader
accepts the files of the format, and besides them those whose header breaks off before its closing
brace, at the place where the first entry or another entry would stand.

## Main definitions

* `Io.Safetensors.HeaderText`, `Io.Safetensors.OpenText`: header texts, and those that break off.
* `Io.Safetensors.WellFormed`, `Io.Safetensors.Legal`, `Io.Safetensors.Unclosed`: files.

## Main results

* `Io.Safetensors.parseHeader_isSome_iff`: what the loader accepts.
* `Io.Safetensors.keepsToFormat_iff`: it keeps to the format except on files that break off so.
-/

namespace Resonantia.Io.Safetensors

open ByteString Json

/-! ### The format -/

/-- A list of natural numbers. -/
def Naturals (l : Bytes) (ns : List ℕ) (r : Bytes) : Prop :=
  ∃ m, l = 91 :: m ∧
    (Ws m (93 :: r) ∧ ns = [] ∨ ∃ m', Ws m m' ∧ Items Natural 93 m' ns r)

/-- The value of a member of a tensor object. -/
def Field (depth : ℕ) (key l : Bytes) : TensorField → Bytes → Prop
  | .dtype v, r => key = bytes "dtype" ∧ Str l v r
  | .shape dims, r => key = bytes "shape" ∧ Naturals l dims r
  | .offsets start finish, r => key = bytes "data_offsets" ∧ Naturals l [start, finish] r
  | .other, r =>
    key ≠ bytes "dtype" ∧ key ≠ bytes "shape" ∧ key ≠ bytes "data_offsets" ∧ Value depth l r

/-- What the header says of a tensor. -/
structure TensorInfo where
  shape : List ℕ
  start : ℕ
  finish : ℕ

/-- A complete tensor object. -/
def TensorText (depth : ℕ) (l : Bytes) (info : TensorInfo) (r : Bytes) : Prop :=
  ∃ m m' fields, l = 123 :: m ∧ Ws m m' ∧ Items (Keyed (Field depth)) 125 m' fields r ∧
    (fields.map Prod.fst).Nodup ∧ (bytes "dtype", .dtype (bytes "F32")) ∈ fields ∧
    (bytes "shape", .shape info.shape) ∈ fields ∧
    (bytes "data_offsets", .offsets info.start info.finish) ∈ fields

/-- The value of an entry of the header: the metadata or a tensor. -/
def Entry (depth : ℕ) (name l : Bytes) : Option TensorInfo → Bytes → Prop
  | none, r => name = metadataKey ∧ Obj (Value (depth - 1)) l r
  | some info, r => name ≠ metadataKey ∧ TensorText depth l info r

/-- A complete header object under distinct names, followed by white space only. -/
def HeaderText (depth : ℕ) (text : Bytes) (entries : List (Bytes × Option TensorInfo)) : Prop :=
  (entries.map Prod.fst).Nodup ∧ ∃ m r, Ws text (123 :: m) ∧ Ws r [] ∧
    (Ws m (125 :: r) ∧ entries = [] ∨
      ∃ m', Ws m m' ∧ Items (Keyed (Entry depth)) 125 m' entries r)

/-- A header that ends after its opening brace, or after the comma behind an entry. -/
def OpenText (depth : ℕ) (text : Bytes) (entries : List (Bytes × Option TensorInfo)) : Prop :=
  (entries.map Prod.fst).Nodup ∧
    ∃ m m', Ws text (123 :: m) ∧ Ws m m' ∧ Hanging (Keyed (Entry depth)) m' entries

/-! ### Numbers in arrays -/

/-- The numbers that the reader of one dimension admits. -/
theorem foldlM_addDimension {ns dims shape : List ℕ} (hshape : shape.length ≤ maxTensorRank) :
    ns.foldlM addDimension shape = some dims ↔
      dims = shape ++ ns ∧ dims.length ≤ maxTensorRank ∧ ∀ n ∈ ns, n < 2 ^ 63 := by
  induction ns generalizing shape with
  | nil =>
    rw [List.foldlM_nil, List.append_nil]
    constructor
    · intro h
      obtain rfl := Option.some.inj h
      exact ⟨rfl, hshape, by simp⟩
    · rintro ⟨rfl, -⟩
      rfl
  | cons n ns ih =>
    rw [List.foldlM_cons, Option.bind_eq_bind, addDimension, List.forall_mem_cons]
    split_ifs with hrank hdim
    · constructor
      · intro h
        cases h
      · rintro ⟨rfl, hlen, -⟩
        rw [List.length_append, List.length_cons] at hlen
        omega
    · constructor
      · intro h
        cases h
      · rintro ⟨-, -, hn, -⟩
        omega
    · have hlen : (shape ++ [n]).length ≤ maxTensorRank := by
        rw [List.length_append, List.length_singleton]
        omega
      rw [Option.bind_some, ih hlen, List.append_assoc, List.singleton_append]
      constructor
      · rintro ⟨h, hrank, hns⟩
        exact ⟨h, hrank, by omega, hns⟩
      · rintro ⟨h, hrank, -, hns⟩
        exact ⟨h, hrank, hns⟩

theorem parseShape_eq_some_iff {l r : Bytes} {dims : List ℕ} :
    parseShape l = some (dims, r) ↔
      Naturals l dims r ∧ dims.length ≤ maxTensorRank ∧ ∀ n ∈ dims, n < 2 ^ 63 := by
  constructor
  · intro h
    cases l with
    | nil => cases h
    | cons c l =>
      rw [parseShape] at h
      split_ifs at h with hc
      subst hc
      rcases items_sound reads_uint64 h with ⟨hempty, rfl⟩ | ⟨m, ns, hws, hfold, h | ⟨hopen, -⟩⟩
      · exact ⟨⟨l, rfl, Or.inl ⟨hempty, rfl⟩⟩, Nat.zero_le _, by simp⟩
      · obtain ⟨rfl, hrank, hdims⟩ := (foldlM_addDimension (Nat.zero_le _)).1 hfold
        exact ⟨⟨l, rfl, Or.inr ⟨m, hws, h.mono fun _ _ _ h => h.1⟩⟩, hrank, hdims⟩
      · cases hopen
  · rintro ⟨⟨m, rfl, ⟨hempty, rfl⟩ | ⟨m', hws, h⟩⟩, hrank, hdims⟩
    · rw [parseShape, if_pos rfl, items_empty (Or.inl rfl) hempty]
    · have hfold : dims.foldlM addDimension [] = some dims :=
        (foldlM_addDimension (Nat.zero_le _)).2 ⟨rfl, hrank, hdims⟩
      have hitems : Items (fun l n r => Natural l n r ∧ n < 2 ^ 64) 93 m' dims r := by
        rw [← List.map_id dims]
        exact h.map (fun _ _ _ hn hlt => ⟨hn, Nat.lt_trans hlt (by decide)⟩) hdims
      rw [parseShape, if_pos rfl, items_complete reads_uint64 (Or.inl rfl) hws hitems hfold]

theorem expect_eq_some_iff {c : UInt8} (hc : isSpace c = false) {l r : Bytes} :
    expect c l = some r ↔ Ws l (c :: r) := by
  constructor
  · intro h
    rw [expect] at h
    split_ifs at h with hhead
    obtain ⟨m, hm⟩ := List.head?_eq_some_iff.1 hhead
    rw [hm] at h
    obtain rfl := Option.some.inj h
    exact hm ▸ ws_skipWs l
  · intro h
    rw [expect, h.skipWs_eq (noWs_cons hc)]
    simp

theorem parseUint64_skipWs (l : Bytes) : parseUint64 l = parseUint64 (skipWs l) := by
  rw [parseUint64, parseUint64, (Ws.refl (skipWs l)).skipWs_eq (noWs_skipWs l)]

theorem parseUint64_sound {l r : Bytes} {n : ℕ} (h : parseUint64 l = some (n, r)) (hr : r ≠ []) :
    ∃ m, Ws l m ∧ Natural m n r ∧ n < 2 ^ 64 := by
  rw [parseUint64_skipWs] at h
  exact ⟨skipWs l, ws_skipWs l, reads_uint64.sound (noWs_skipWs l) hr h⟩

theorem parseUint64_complete {l m r : Bytes} {n : ℕ} (hws : Ws l m) (h : Natural m n r)
    (hn : n < 2 ^ 64) (hr : Follow r) : parseUint64 l = some (n, r) := by
  rw [parseUint64_skipWs, hws.skipWs_eq (reads_uint64.noWs ⟨h, hn⟩)]
  exact reads_uint64.complete ⟨h, hn⟩ hr

theorem ne_nil_of_expect {c : UInt8} {l r : Bytes} (h : expect c l = some r) : l ≠ [] := by
  rintro rfl
  cases h

theorem parseOffsets_eq_some_iff {l r : Bytes} {start finish : ℕ} :
    parseOffsets l = some ((start, finish), r) ↔
      Naturals l [start, finish] r ∧ start < 2 ^ 64 ∧ finish < 2 ^ 64 := by
  constructor
  · intro h
    cases l with
    | nil => cases h
    | cons c l =>
      obtain ⟨⟨⟩, hc, h⟩ := Option.bind_eq_some_iff.1 h
      obtain ⟨⟨s, l₁⟩, hs, h⟩ := Option.bind_eq_some_iff.1 h
      obtain ⟨l₂, hcomma, h⟩ := Option.bind_eq_some_iff.1 h
      obtain ⟨⟨f, l₃⟩, hf, h⟩ := Option.bind_eq_some_iff.1 h
      obtain ⟨l₄, hclose, h⟩ := Option.bind_eq_some_iff.1 h
      obtain ⟨hpair, rfl⟩ := Prod.mk.inj (Option.some.inj h)
      obtain ⟨rfl, rfl⟩ := Prod.mk.inj hpair
      obtain rfl := (Option.guard_eq_some' ()).1 hc
      obtain ⟨m, hws, hstart, hslt⟩ := parseUint64_sound hs (ne_nil_of_expect hcomma)
      obtain ⟨n, hws', hfinish, hflt⟩ := parseUint64_sound hf (ne_nil_of_expect hclose)
      have hcomma := (expect_eq_some_iff (by decide)).1 hcomma
      have hclose := (expect_eq_some_iff (by decide)).1 hclose
      exact ⟨⟨l, rfl, Or.inr ⟨m, hws, .cons hstart hcomma hws' (.last hfinish hclose)⟩⟩,
        hslt, hflt⟩
  · rintro ⟨⟨m, rfl, ⟨-, hnil⟩ | ⟨m', hws, h⟩⟩, hslt, hflt⟩
    · cases hnil
    · cases h with
      | cons hstart hcomma hws' h =>
        cases h with
        | last hfinish hclose =>
          have hread := parseUint64_complete hws hstart hslt
            (hcomma.follow (follow_cons (Or.inl rfl)))
          have hread' := parseUint64_complete hws' hfinish hflt
            (hclose.follow (follow_cons (Or.inr (Or.inl rfl))))
          have hcomma := (expect_eq_some_iff (by decide)).2 hcomma
          have hclose := (expect_eq_some_iff (by decide)).2 hclose
          simp only [parseOffsets, guard_true, hread, hcomma, hread', hclose, Option.pure_def,
            Option.bind_eq_bind, Option.bind_some]
        | cons _ _ _ h => cases h

/-! ### Members of a tensor object -/

/-- The loader's limits on a member. -/
def TensorField.Fits : TensorField → Prop
  | .shape dims => dims.length ≤ maxTensorRank ∧ ∀ n ∈ dims, n < 2 ^ 63
  | .offsets start finish => start < 2 ^ 64 ∧ finish < 2 ^ 64
  | _ => True

theorem tensorField_sound {key l r : Bytes} {f : TensorField} (hl : NoWs l) (hr : r ≠ [])
    (h : tensorField key l = some (f, r)) : Field maxJsonDepth key l f r ∧ f.Fits := by
  rw [tensorField] at h
  split_ifs at h with hdtype hshape hoffsets
  · obtain ⟨⟨v, r'⟩, hread, heq⟩ := Option.map_eq_some_iff.1 h
    obtain ⟨rfl, rfl⟩ := Prod.mk.inj heq
    exact ⟨⟨hdtype, parseString_eq_some_iff.1 hread⟩, trivial⟩
  · obtain ⟨⟨dims, r'⟩, hread, heq⟩ := Option.map_eq_some_iff.1 h
    obtain ⟨rfl, rfl⟩ := Prod.mk.inj heq
    obtain ⟨htext, hfits⟩ := parseShape_eq_some_iff.1 hread
    exact ⟨⟨hshape, htext⟩, hfits⟩
  · obtain ⟨⟨⟨s, e⟩, r'⟩, hread, heq⟩ := Option.map_eq_some_iff.1 h
    obtain ⟨rfl, rfl⟩ := Prod.mk.inj heq
    obtain ⟨htext, hfits⟩ := parseOffsets_eq_some_iff.1 hread
    exact ⟨⟨hoffsets, htext⟩, hfits⟩
  · obtain ⟨r', hread, heq⟩ := Option.map_eq_some_iff.1 h
    obtain ⟨rfl, rfl⟩ := Prod.mk.inj heq
    have hvalue : ignoring (skipValue maxJsonDepth) l = some ((), r') := by
      rw [ignoring, hread, Option.map_some]
    exact ⟨⟨hdtype, hshape, hoffsets, (reads_value maxJsonDepth).sound hl hr hvalue⟩, trivial⟩

theorem tensorField_complete {key l r : Bytes} {f : TensorField}
    (h : Field maxJsonDepth key l f r) (hfits : f.Fits) (hr : Follow r) :
    tensorField key l = some (f, r) := by
  cases f with
  | dtype v =>
    obtain ⟨rfl, h⟩ := h
    rw [tensorField, if_pos rfl, parseString_eq_some_iff.2 h, Option.map_some]
  | shape dims =>
    obtain ⟨rfl, h⟩ := h
    rw [tensorField, if_neg (by decide), if_pos rfl, parseShape_eq_some_iff.2 ⟨h, hfits⟩,
      Option.map_some]
  | offsets start finish =>
    obtain ⟨rfl, h⟩ := h
    rw [tensorField, if_neg (by decide), if_neg (by decide), if_pos rfl,
      parseOffsets_eq_some_iff.2 ⟨h, hfits⟩, Option.map_some]
  | other =>
    obtain ⟨hdtype, hshape, hoffsets, h⟩ := h
    have hread := (reads_value maxJsonDepth).complete h hr (a := ())
    obtain ⟨r', hskip, heq⟩ := Option.map_eq_some_iff.1 hread
    obtain ⟨-, rfl⟩ := Prod.mk.inj heq
    rw [tensorField, if_neg hdtype, if_neg hshape, if_neg hoffsets, hskip, Option.map_some]

theorem Naturals.length_lt {l r : Bytes} {ns : List ℕ} (h : Naturals l ns r) :
    r.length < l.length := by
  obtain ⟨m, rfl, ⟨h, -⟩ | ⟨m', hws, h⟩⟩ := h
  · exact Nat.lt_of_lt_of_le (Nat.lt_succ_self _) (Nat.le_succ_of_le h.length_le)
  · exact Nat.lt_succ_of_lt
      (Nat.lt_of_lt_of_le (Items.length_lt Natural.length_lt h) hws.length_le)

theorem Field.length_lt {depth : ℕ} {key l r : Bytes} {f : TensorField}
    (h : Field depth key l f r) : r.length < l.length := by
  cases f with
  | dtype v => exact h.2.length_lt
  | shape dims => exact Naturals.length_lt h.2
  | offsets start finish => exact Naturals.length_lt h.2
  | other => exact (reads_value depth).shortens h.2.2.2 (a := ())

/-- The reader of one member of a tensor object. -/
theorem reads_tensorField (key : Bytes) :
    Reads (tensorField key) fun l f r => Field maxJsonDepth key l f r ∧ f.Fits where
  sound := tensorField_sound
  complete h hr := tensorField_complete h.1 h.2 hr
  starts := by
    rintro l f r ⟨h, -⟩
    cases f with
    | dtype v => exact starts_of_str h.2
    | shape dims =>
      obtain ⟨-, m, rfl, -⟩ := h
      exact ⟨91, m, rfl, by decide, by decide, by decide⟩
    | offsets start finish =>
      obtain ⟨-, m, rfl, -⟩ := h
      exact ⟨91, m, rfl, by decide, by decide, by decide⟩
    | other => exact Value.starts h.2.2.2
  shortens h := Field.length_lt h.1

/-! ### Tensors -/

/-- The byte strides of a contiguous tensor. -/
def strides : List ℕ → List ℕ
  | [] => []
  | _ :: dims => 4 * dims.prod :: strides dims

/-- The loader's limits on strides. -/
def StridesFit : List ℕ → Prop
  | [] => True
  | dim :: dims => StridesFit dims ∧ 4 * dims.prod < 2 ^ 63 ∧ 4 * (dim * dims.prod) < 2 ^ 64

theorem addStride_eq_some_iff {dim stride elements : ℕ} {steps : List ℕ}
    {result : List ℕ × ℕ × ℕ} :
    addStride dim (steps, stride, elements) = some result ↔
      (stride < 2 ^ 63 ∧ stride * dim < 2 ^ 64 ∧ elements * dim < 2 ^ 64) ∧
        result = (stride :: steps, stride * dim, elements * dim) := by
  simp only [addStride, Option.bind_eq_bind, Option.bind_eq_some_iff, Option.guard_eq_some',
    Option.pure_def, Option.some.injEq, exists_const]
  constructor
  · rintro ⟨h₁, h₂, h₃, rfl⟩
    exact ⟨⟨h₁, h₂, h₃⟩, rfl⟩
  · rintro ⟨⟨h₁, h₂, h₃⟩, rfl⟩
    exact ⟨h₁, h₂, h₃, rfl⟩

/-- The stride loop computes the strides and the number of elements. -/
theorem foldrM_addStride {dims : List ℕ} {result : List ℕ × ℕ × ℕ} :
    dims.foldrM addStride ([], 4, 1) = some result ↔
      StridesFit dims ∧ result = (strides dims, 4 * dims.prod, dims.prod) := by
  induction dims generalizing result with
  | nil =>
    rw [List.foldrM_nil]
    constructor
    · intro h
      exact ⟨trivial, (Option.some.inj h).symm⟩
    · rintro ⟨-, rfl⟩
      rfl
  | cons dim dims ih =>
    rw [List.foldrM_cons, Option.bind_eq_bind, Option.bind_eq_some_iff]
    have hproduct : 4 * dims.prod * dim = 4 * (dim * dims.prod) := by
      rw [Nat.mul_assoc, Nat.mul_comm dims.prod]
    rw [List.prod_cons]
    constructor
    · rintro ⟨_, hrest, hstep⟩
      obtain ⟨hfit, rfl⟩ := ih.1 hrest
      obtain ⟨⟨hstride, hnext, -⟩, rfl⟩ := addStride_eq_some_iff.1 hstep
      rw [hproduct] at hnext
      refine ⟨⟨hfit, hstride, hnext⟩, ?_⟩
      rw [hproduct, Nat.mul_comm dims.prod, strides]
    · rintro ⟨⟨hfit, hstride, hnext⟩, rfl⟩
      refine ⟨_, ih.2 ⟨hfit, rfl⟩, addStride_eq_some_iff.2 ⟨⟨hstride, ?_, ?_⟩, ?_⟩⟩
      · rw [hproduct]
        exact hnext
      · rw [Nat.mul_comm dims.prod]
        omega
      · rw [hproduct, Nat.mul_comm dims.prod, strides]

/-- The loader's limits on a tensor, whose data start here. -/
structure TensorInfo.Fits (dataStart : ℕ) (info : TensorInfo) : Prop where
  rank : info.shape.length ≤ maxTensorRank
  dims : ∀ n ∈ info.shape, n < 2 ^ 63
  strides : StridesFit info.shape
  bytes : 4 * info.shape.prod < 2 ^ 64
  finish : info.finish < 2 ^ 64
  offset : dataStart + info.start < 2 ^ 64

/-- The range of a tensor holds its elements and lies in the data. -/
structure TensorInfo.Sized (dataSize : ℕ) (info : TensorInfo) : Prop where
  ordered : info.start ≤ info.finish
  within : info.finish ≤ dataSize
  size : info.finish = info.start + 4 * info.shape.prod

/-- The tensor as the loader keeps it. -/
def TensorInfo.tensor (name : Bytes) (dataStart : ℕ) (info : TensorInfo) : Tensor :=
  ⟨name, bytes "F32", info.shape, Safetensors.strides info.shape, dataStart + info.start,
    4 * info.shape.prod⟩

theorem lookup_eq_some_iff {α : Type} {fields : List (Bytes × α)}
    (h : (fields.map Prod.fst).Nodup) {key : Bytes} {f : α} :
    fields.lookup key = some f ↔ (key, f) ∈ fields := by
  induction fields with
  | nil => simp
  | cons field fields ih =>
    obtain ⟨k, g⟩ := field
    rw [List.map_cons, List.nodup_cons] at h
    rw [List.lookup_cons, List.mem_cons, Prod.mk.injEq]
    by_cases hk : key = k
    · subst hk
      have hnone : (key, f) ∉ fields := fun hmem => h.1 (List.mem_map.2 ⟨_, hmem, rfl⟩)
      simp [hnone, eq_comm]
    · have hbeq : (key == k) = false := by simpa using hk
      simp [hbeq, hk, ih h.2]

/-- The checks of `parse_tensor` on its members. -/
theorem finishTensor_eq_some_iff {name : Bytes} {dataStart dataSize : ℕ}
    {fields : List (Bytes × TensorField)} (hdistinct : (fields.map Prod.fst).Nodup)
    {tensor : Tensor} {start finish : ℕ} :
    finishTensor name dataStart dataSize fields = some (tensor, start, finish) ↔
      ∃ shape, (bytes "dtype", .dtype (bytes "F32")) ∈ fields ∧
        (bytes "shape", .shape shape) ∈ fields ∧
        (bytes "data_offsets", .offsets start finish) ∈ fields ∧
        TensorInfo.Sized dataSize ⟨shape, start, finish⟩ ∧ StridesFit shape ∧
        4 * shape.prod < 2 ^ 64 ∧ dataStart + start < 2 ^ 64 ∧
        tensor = TensorInfo.tensor name dataStart ⟨shape, start, finish⟩ := by
  simp only [← lookup_eq_some_iff hdistinct]
  constructor
  · intro h
    rw [finishTensor] at h
    split at h
    · rename_i dtype shape s f hdtype hshape hoffsets
      obtain ⟨⟨⟩, hF32, h⟩ := Option.bind_eq_some_iff.1 h
      obtain ⟨⟨⟩, hrange, h⟩ := Option.bind_eq_some_iff.1 h
      obtain ⟨⟨steps, stride, elements⟩, hfold, h⟩ := Option.bind_eq_some_iff.1 h
      obtain ⟨⟨⟩, hbytes, h⟩ := Option.bind_eq_some_iff.1 h
      obtain ⟨⟨⟩, hsize, h⟩ := Option.bind_eq_some_iff.1 h
      obtain ⟨⟨⟩, hoffset, h⟩ := Option.bind_eq_some_iff.1 h
      rw [Option.guard_eq_some'] at hF32 hrange hbytes hsize hoffset
      obtain ⟨hfit, heq⟩ := foldrM_addStride.1 hfold
      obtain ⟨rfl, hpair⟩ := Prod.mk.inj heq
      obtain ⟨-, rfl⟩ := Prod.mk.inj hpair
      obtain ⟨rfl, hrange'⟩ := Prod.mk.inj (Option.some.inj h)
      obtain ⟨rfl, rfl⟩ := Prod.mk.inj hrange'
      subst hF32
      rw [Nat.mul_comm] at hbytes hsize
      refine ⟨shape, hdtype, hshape, hoffsets, ⟨hrange.1, hrange.2, ?_⟩, hfit, hbytes, hoffset,
        ?_⟩
      · change f = s + 4 * shape.prod
        omega
      · rw [TensorInfo.tensor, Nat.mul_comm]
    · cases h
  · rintro ⟨shape, hdtype, hshape, hoffsets, ⟨hordered, hwithin, hsize⟩, hfit, hbytes, hoffset,
      rfl⟩
    have hfold := foldrM_addStride.2 ⟨hfit, rfl⟩
    dsimp only at hordered hwithin hsize
    have hdiff : finish - start = shape.prod * 4 := by
      rw [hsize, Nat.add_sub_cancel_left, Nat.mul_comm]
    rw [Nat.mul_comm] at hbytes
    simp only [finishTensor, hdtype, hshape, hoffsets, hfold, guard_true, hordered, hwithin,
      and_self, hbytes, hdiff, hoffset, Option.pure_def, Option.bind_eq_bind, Option.bind_some,
      TensorInfo.tensor, Nat.mul_comm]

theorem eq_of_mem_fields {α : Type} {fields : List (Bytes × α)}
    (h : (fields.map Prod.fst).Nodup) {key : Bytes} {f g : α} (hf : (key, f) ∈ fields)
    (hg : (key, g) ∈ fields) : f = g := by
  have hlookup := (lookup_eq_some_iff h).2 hf
  rw [(lookup_eq_some_iff h).2 hg] at hlookup
  exact (Option.some.inj hlookup).symm

/-- What the loader needs of an entry. -/
def Admissible (dataStart dataSize : ℕ) : Option TensorInfo → Prop
  | none => True
  | some info => info.Fits dataStart ∧ info.Sized dataSize

/-- An entry as the loader keeps it. -/
def kept (dataStart : ℕ) (name : Bytes) : Option TensorInfo → HeaderEntry
  | none => .metadata
  | some info => .tensor (info.tensor name dataStart) info.start info.finish

theorem parseTensor_sound {name : Bytes} {dataStart dataSize : ℕ} {l r : Bytes} {tensor : Tensor}
    {start finish : ℕ} (hr : r ≠ [])
    (h : parseTensor name dataStart dataSize l = some ((tensor, start, finish), r)) :
    ∃ info : TensorInfo, TensorText maxJsonDepth l info r ∧ info.Fits dataStart ∧
      info.Sized dataSize ∧ tensor = info.tensor name dataStart ∧ start = info.start ∧
      finish = info.finish := by
  cases l with
  | nil => cases h
  | cons c l =>
    rw [parseTensor] at h
    split_ifs at h with hc
    subst hc
    split at h
    · cases h
    · rename_i fields r' hitems
      obtain ⟨result, hfinish, heq⟩ := Option.map_eq_some_iff.1 h
      obtain ⟨rfl, rfl⟩ := Prod.mk.inj heq
      rcases items_sound (reads_keyed reads_tensorField) hitems with
        ⟨-, rfl⟩ | ⟨m, members, hws, hfold, htext | ⟨-, hnil, -⟩⟩
      · cases hfinish
      · obtain ⟨rfl, hdistinct⟩ := foldlM_addUnique_nil.1 hfold
        obtain ⟨shape, hdtype, hshape, hoffsets, hsized, hstrides, hbytes, hoffset, rfl⟩ :=
          (finishTensor_eq_some_iff hdistinct).1 hfinish
        obtain ⟨members, hmembers, hfits, htext⟩ :
            ∃ members, fields = members.map id ∧ (∀ e ∈ members, e.2.Fits) ∧
              Items (Keyed (Field maxJsonDepth)) 125 m members r' := by
          refine htext.exists_map ?_
          rintro l e r ⟨m, n, n', hkey, hcolon, hws, htext, hfit⟩
          exact ⟨e, rfl, hfit, m, n, n', hkey, hcolon, hws, htext⟩
        rw [List.map_id] at hmembers
        subst hmembers
        refine ⟨⟨shape, start, finish⟩, ⟨l, m, fields, rfl, hws, htext, hdistinct, hdtype, hshape,
          hoffsets⟩, ⟨(hfits _ hshape).1, (hfits _ hshape).2, hstrides, hbytes,
          (hfits _ hoffsets).2, hoffset⟩, hsized, rfl, rfl, rfl⟩
      · exact (hr hnil).elim

theorem parseTensor_complete {name : Bytes} {dataStart dataSize : ℕ} {l r : Bytes}
    {info : TensorInfo} (h : TensorText maxJsonDepth l info r) (hfits : info.Fits dataStart)
    (hsized : info.Sized dataSize) :
    parseTensor name dataStart dataSize l =
      some ((info.tensor name dataStart, info.start, info.finish), r) := by
  obtain ⟨m, m', fields, rfl, hws, htext, hdistinct, hdtype, hshape, hoffsets⟩ := h
  have hfields : ∀ e ∈ fields, e.2.Fits := by
    rintro ⟨key, f⟩ he
    obtain ⟨_, _, _, _, n, -, -, -, hfield⟩ := htext.exists_of_mem _ he
    cases f with
    | shape dims =>
      obtain ⟨hkey, -⟩ := hfield
      dsimp only at hkey
      subst hkey
      obtain rfl := TensorField.shape.inj (eq_of_mem_fields hdistinct he hshape)
      exact ⟨hfits.rank, hfits.dims⟩
    | offsets s f =>
      obtain ⟨hkey, -⟩ := hfield
      dsimp only at hkey
      subst hkey
      obtain ⟨rfl, rfl⟩ := TensorField.offsets.inj (eq_of_mem_fields hdistinct he hoffsets)
      exact ⟨Nat.lt_of_le_of_lt (Nat.le_add_left _ _) hfits.offset, hfits.finish⟩
    | dtype _ => trivial
    | other => trivial
  have hread : Items (Keyed fun key l f r => Field maxJsonDepth key l f r ∧ f.Fits) 125 m'
      fields r := by
    rw [← List.map_id fields]
    refine htext.map ?_ hfields
    rintro l e r ⟨m, n, n', hkey, hcolon, hws, hfield⟩ hfit
    exact ⟨m, n, n', hkey, hcolon, hws, hfield, hfit⟩
  have hfold := foldlM_addUnique_nil.2 ⟨rfl, hdistinct⟩
  have hfinish := (@finishTensor_eq_some_iff name _ _ _ hdistinct _ _ _).2
    ⟨info.shape, hdtype, hshape, hoffsets, hsized, hfits.strides, hfits.bytes, hfits.offset, rfl⟩
  rw [parseTensor, if_pos rfl,
    items_complete (reads_keyed reads_tensorField) (Or.inr rfl) hws hread hfold]
  simp only [hfinish, Option.map_some]

/-- An entry that the loader takes, as it keeps it. -/
def KeptEntry (dataStart dataSize : ℕ) (name l : Bytes) (e : HeaderEntry) (r : Bytes) : Prop :=
  ∃ info, e = kept dataStart name info ∧ Admissible dataStart dataSize info ∧
    Entry maxJsonDepth name l info r

/-- The reader of the value of an entry. -/
theorem reads_headerEntry (dataStart dataSize : ℕ) (name : Bytes) :
    Reads (headerEntry dataStart dataSize name) (KeptEntry dataStart dataSize name) where
  sound := by
    intro l e r _ hr h
    rw [headerEntry] at h
    split_ifs at h with hname
    · obtain ⟨r', hskip, heq⟩ := Option.map_eq_some_iff.1 h
      obtain ⟨rfl, rfl⟩ := Prod.mk.inj heq
      exact ⟨none, rfl, trivial, hname, (skipObject_eq_some_iff (reads_value _)).1 hskip⟩
    · obtain ⟨⟨⟨tensor, start, finish⟩, r'⟩, hread, heq⟩ := Option.map_eq_some_iff.1 h
      obtain ⟨rfl, rfl⟩ := Prod.mk.inj heq
      obtain ⟨info, htext, hfits, hsized, rfl, rfl, rfl⟩ := parseTensor_sound hr hread
      exact ⟨some info, rfl, ⟨hfits, hsized⟩, hname, htext⟩
  complete := by
    rintro l e r ⟨info, rfl, hadmissible, hentry⟩ hr
    cases info with
    | none =>
      obtain ⟨rfl, hobject⟩ := hentry
      rw [headerEntry, if_pos rfl, (skipObject_eq_some_iff (reads_value _)).2 hobject]
      rfl
    | some info =>
      obtain ⟨hname, htext⟩ := hentry
      rw [headerEntry, if_neg hname, parseTensor_complete htext hadmissible.1 hadmissible.2]
      rfl
  starts := by
    rintro l e r ⟨info, -, -, hentry⟩
    cases info with
    | none =>
      obtain ⟨-, m, rfl, -⟩ := hentry
      exact ⟨123, m, rfl, by decide, by decide, by decide⟩
    | some info =>
      obtain ⟨-, m, m', fields, rfl, -⟩ := hentry
      exact ⟨123, m, rfl, by decide, by decide, by decide⟩
  shortens := by
    rintro l e r ⟨info, -, -, hentry⟩
    cases info with
    | none => exact hentry.2.length_lt ((reads_value _).shortens (a := ()))
    | some info =>
      obtain ⟨-, m, m', fields, rfl, hws, htext, -⟩ := hentry
      have hlt := Items.length_lt (Keyed.length_lt fun _ => Field.length_lt) htext
      exact Nat.lt_succ_of_lt (Nat.lt_of_lt_of_le hlt hws.length_le)

/-! ### Header texts -/

/-- The entries as the loader keeps them. -/
def keptEntries (dataStart : ℕ) (entries : List (Bytes × Option TensorInfo)) :
    List (Bytes × HeaderEntry) :=
  entries.map fun entry => (entry.1, kept dataStart entry.1 entry.2)

theorem keys_keptEntries (dataStart : ℕ) (entries : List (Bytes × Option TensorInfo)) :
    (keptEntries dataStart entries).map Prod.fst = entries.map Prod.fst := by
  rw [keptEntries, List.map_map]
  rfl

section

variable {dataStart dataSize : ℕ}

theorem keyed_of_keptEntry (l : Bytes) (b : Bytes × HeaderEntry) (r : Bytes)
    (h : Keyed (KeptEntry dataStart dataSize) l b r) :
    ∃ a : Bytes × Option TensorInfo, b = (a.1, kept dataStart a.1 a.2) ∧
      Admissible dataStart dataSize a.2 ∧ Keyed (Entry maxJsonDepth) l a r := by
  obtain ⟨key, e⟩ := b
  obtain ⟨m, n, n', hkey, hcolon, hws, info, he, hadmissible, hentry⟩ := h
  exact ⟨(key, info), by rw [← he], hadmissible, m, n, n', hkey, hcolon, hws, hentry⟩

theorem keyed_keptEntry (l : Bytes) (a : Bytes × Option TensorInfo) (r : Bytes)
    (h : Keyed (Entry maxJsonDepth) l a r) (hadmissible : Admissible dataStart dataSize a.2) :
    Keyed (KeptEntry dataStart dataSize) l (a.1, kept dataStart a.1 a.2) r := by
  obtain ⟨m, n, n', hkey, hcolon, hws, hentry⟩ := h
  exact ⟨m, n, n', hkey, hcolon, hws, a.2, rfl, hadmissible, hentry⟩

/-- **The header text.** The loader reads a complete header, or one that breaks off, into its
entries. -/
theorem parseHeaderText_eq_some_iff {text : Bytes} {result : List (Bytes × HeaderEntry)} :
    parseHeaderText dataStart dataSize text = some result ↔
      ∃ entries, result = keptEntries dataStart entries ∧
        (∀ entry ∈ entries, Admissible dataStart dataSize entry.2) ∧
        (HeaderText maxJsonDepth text entries ∨ OpenText maxJsonDepth text entries) := by
  have hreads := reads_keyed (reads_headerEntry dataStart dataSize)
  constructor
  · intro h
    rw [parseHeaderText] at h
    split at h
    · cases h
    · rename_i c l hskip
      split_ifs at h with hc
      subst hc
      have hopen : Ws text (123 :: l) := hskip ▸ ws_skipWs text
      split at h
      · cases h
      · rename_i result' r hitems
        split_ifs at h with hend
        obtain rfl := Option.some.inj h
        have hend : Ws r [] := hend ▸ ws_skipWs r
        rcases items_sound hreads hitems with ⟨hempty, rfl⟩ | ⟨m, as, hws, hfold, hrest⟩
        · exact ⟨[], rfl, by simp, Or.inl ⟨by simp, l, r, hopen, hend, Or.inl ⟨hempty, rfl⟩⟩⟩
        · obtain ⟨rfl, hdistinct⟩ := foldlM_addUnique_nil.1 hfold
          rcases hrest with htext | ⟨-, -, htext⟩
          · obtain ⟨entries, rfl, hadmissible, htext⟩ := htext.exists_map keyed_of_keptEntry
            rw [← keptEntries, keys_keptEntries] at hdistinct
            exact ⟨entries, rfl, hadmissible, Or.inl ⟨hdistinct, l, r, hopen, hend,
              Or.inr ⟨m, hws, htext⟩⟩⟩
          · obtain ⟨entries, rfl, hadmissible, htext⟩ := htext.exists_map keyed_of_keptEntry
            rw [← keptEntries, keys_keptEntries] at hdistinct
            exact ⟨entries, rfl, hadmissible, Or.inr ⟨hdistinct, l, m, hopen, hws, htext⟩⟩
  · rintro ⟨entries, rfl, hadmissible, htext⟩
    have hfold : ∀ hdistinct : (entries.map Prod.fst).Nodup,
        (keptEntries dataStart entries).foldlM addUnique [] =
          some (keptEntries dataStart entries) := by
      intro hdistinct
      rw [← keys_keptEntries dataStart] at hdistinct
      exact foldlM_addUnique_nil.2 ⟨rfl, hdistinct⟩
    rcases htext with ⟨hdistinct, m, r, hopen, hend, hbody⟩ | ⟨hdistinct, m, m', hopen, hws, htext⟩
    · have hskip := hopen.skipWs_eq (noWs_cons (by decide))
      have hrest := hend.skipWs_eq (by intro c hc; cases hc)
      rcases hbody with ⟨hempty, rfl⟩ | ⟨m', hws, htext⟩
      · simp only [parseHeaderText, hskip, if_true, items_empty (Or.inr rfl) hempty, hrest]
        rfl
      · have hitems : items (keyed (headerEntry dataStart dataSize)) addUnique 125 true [] m =
            some (keptEntries dataStart entries, r) :=
          items_complete hreads (Or.inr rfl) hws (htext.map keyed_keptEntry hadmissible)
            (hfold hdistinct)
        simp only [parseHeaderText, hskip, if_true, hitems, hrest]
    · have hskip := hopen.skipWs_eq (noWs_cons (by decide))
      have hitems := items_hanging hreads (Or.inr rfl) hws
        (htext.map keyed_keptEntry hadmissible) (hfold hdistinct)
      simp only [parseHeaderText, hskip, if_true, hitems]
      rfl

end

/-! ### Data ranges -/

/-- Ranges that lie end to end. -/
def Tiles : ℕ → List (ℕ × ℕ) → ℕ → Prop
  | start, [], finish => start = finish
  | start, range :: ranges, finish =>
    range.1 = start ∧ start ≤ range.2 ∧ Tiles range.2 ranges finish

theorem foldlM_cover_eq_some_iff {ranges : List (ℕ × ℕ)} {start finish : ℕ} :
    ranges.foldlM cover start = some finish ↔ Tiles start ranges finish := by
  induction ranges generalizing start with
  | nil =>
    rw [List.foldlM_nil]
    exact ⟨Option.some.inj, congrArg some⟩
  | cons range ranges ih =>
    rw [List.foldlM_cons, Option.bind_eq_bind, cover, Tiles]
    split_ifs with h
    · constructor
      · intro h
        cases h
      · rintro ⟨h₁, h₂, -⟩
        omega
    · rw [Option.bind_some, ih]
      constructor
      · intro htiles
        exact ⟨by omega, by omega, htiles⟩
      · rintro ⟨-, -, htiles⟩
        exact htiles

theorem Tiles.bounds {ranges : List (ℕ × ℕ)} {start finish : ℕ} (h : Tiles start ranges finish) :
    start ≤ finish ∧ ∀ range ∈ ranges, start ≤ range.1 ∧ range.1 ≤ range.2 ∧ range.2 ≤ finish := by
  induction ranges generalizing start with
  | nil => exact ⟨Nat.le_of_eq h, by simp⟩
  | cons range ranges ih =>
    obtain ⟨hstart, hle, hrest⟩ := h
    obtain ⟨hfinish, hranges⟩ := ih hrest
    refine ⟨by omega, List.forall_mem_cons.2 ⟨⟨by omega, by omega, hfinish⟩, ?_⟩⟩
    intro other hother
    obtain ⟨h₁, h₂, h₃⟩ := hranges other hother
    exact ⟨by omega, h₂, h₃⟩

theorem rangeLe_iff {a b : ℕ × ℕ} :
    rangeLe a b = true ↔ a.1 < b.1 ∨ a.1 = b.1 ∧ a.2 ≤ b.2 := by
  simp [rangeLe]

theorem Tiles.pairwise {ranges : List (ℕ × ℕ)} {start finish : ℕ}
    (h : Tiles start ranges finish) : ranges.Pairwise fun a b => rangeLe a b = true := by
  induction ranges generalizing start with
  | nil => exact .nil
  | cons range ranges ih =>
    obtain ⟨hstart, hle, hrest⟩ := h
    refine .cons ?_ (ih hrest)
    intro other hother
    obtain ⟨h₁, h₂, -⟩ := hrest.bounds.2 other hother
    rw [rangeLe_iff]
    omega

/-- Ranges lie end to end in some order exactly if they do once they are sorted. -/
theorem tiles_mergeSort_iff {ranges : List (ℕ × ℕ)} {start finish : ℕ} :
    Tiles start (ranges.mergeSort rangeLe) finish ↔
      ∃ order : List (ℕ × ℕ), order.Perm ranges ∧ Tiles start order finish := by
  constructor
  · intro h
    exact ⟨_, List.mergeSort_perm .., h⟩
  · rintro ⟨order, hperm, h⟩
    have hsorted : (ranges.mergeSort rangeLe).Pairwise fun a b => rangeLe a b = true := by
      refine List.pairwise_mergeSort ?_ ?_ ranges
      · intro a b c hab hbc
        rw [rangeLe_iff] at hab hbc ⊢
        omega
      · intro a b
        rw [Bool.or_eq_true, rangeLe_iff, rangeLe_iff]
        omega
    have heq : ranges.mergeSort rangeLe = order := by
      refine List.Perm.eq_of_pairwise ?_ hsorted h.pairwise
        ((List.mergeSort_perm ..).trans hperm.symm)
      intro a b _ _ hab hba
      rw [rangeLe_iff] at hab hba
      exact Prod.ext (by omega) (by omega)
    rw [heq]
    exact h

/-! ### The header as a JSON text -/

theorem num_of_natural {l r : Bytes} {n : ℕ} (h : Natural l n r) : Num l r := by
  obtain ⟨w, rfl, hne, hall, hlead, -⟩ := h
  refine ⟨w ++ r, r, r, Or.inl rfl, ?_, Or.inl rfl, Or.inl rfl⟩
  cases w with
  | nil => exact (hne rfl).elim
  | cons c w =>
    by_cases hc : c = 48
    · subst hc
      obtain rfl := (List.cons.inj (hlead rfl)).2
      exact Or.inl rfl
    · rw [List.all_cons, Bool.and_eq_true] at hall
      exact Or.inr ⟨c, w ++ r, rfl, hall.1, hc, w, rfl, hall.2⟩

theorem arr_of_naturals {l r : Bytes} {ns : List ℕ} {depth : ℕ} (h : Naturals l ns r) :
    Arr (Value (depth + 1)) l r := by
  obtain ⟨m, rfl, ⟨h, -⟩ | ⟨m', hws, h⟩⟩ := h
  · exact ⟨m, rfl, Or.inl h⟩
  · refine ⟨m, rfl, Or.inr ⟨m', ns.map fun _ => (), hws, h.map (P := fun _ => True) ?_ ?_⟩⟩
    · intro l n r hn _
      exact Or.inr (Or.inl (num_of_natural hn))
    · exact fun _ _ => trivial

theorem value_of_field {depth : ℕ} {key l r : Bytes} {f : TensorField}
    (h : Field depth key l f r) : Value (depth + 2) l r := by
  cases f with
  | dtype v => exact Or.inl ⟨v, h.2⟩
  | shape dims => exact Or.inr (Or.inr (Or.inr (Or.inl (arr_of_naturals h.2))))
  | offsets start finish => exact Or.inr (Or.inr (Or.inr (Or.inl (arr_of_naturals h.2))))
  | other => exact h.2.2.2.mono (Nat.le_add_right depth 2)

theorem obj_of_tensorText {depth : ℕ} {l r : Bytes} {info : TensorInfo}
    (h : TensorText depth l info r) : Obj (Value (depth + 2)) l r := by
  obtain ⟨m, m', fields, rfl, hws, htext, hdistinct, -⟩ := h
  refine ⟨m, rfl, Or.inr ⟨m', fields.map fun field => (field.1, ()), hws,
    htext.map (P := fun _ => True) ?_ fun _ _ => trivial, ?_⟩⟩
  · rintro l e r ⟨m, n, n', hkey, hcolon, hws, hfield⟩ -
    exact ⟨m, n, n', hkey, hcolon, hws, value_of_field hfield⟩
  · rw [List.map_map]
    exact hdistinct

theorem value_of_entry {depth : ℕ} {name l r : Bytes} {info : Option TensorInfo}
    (h : Entry depth name l info r) : Value (depth + 3) l r := by
  cases info with
  | none =>
    have hobject := h.2.mono fun hvalue => Value.mono (show depth - 1 ≤ depth + 2 by omega) hvalue
    exact Or.inr (Or.inr (Or.inr (Or.inr hobject)))
  | some info => exact Or.inr (Or.inr (Or.inr (Or.inr (obj_of_tensorText h.2))))

/-- A complete header is one JSON object. -/
theorem objectText_of_headerText {depth : ℕ} {text : Bytes}
    {entries : List (Bytes × Option TensorInfo)} (h : HeaderText depth text entries) :
    ObjectText text := by
  obtain ⟨hdistinct, m, r, hopen, hend, h | ⟨m', hws, htext⟩⟩ := h
  · exact ⟨depth, _, r, hopen, ⟨m, rfl, Or.inl h.1⟩, hend⟩
  · refine ⟨depth + 3, _, r, hopen, ⟨m, rfl, Or.inr ⟨m', entries.map fun entry => (entry.1, ()),
      hws, htext.map (P := fun _ => True) ?_ fun _ _ => trivial, ?_⟩⟩, hend⟩
    · rintro l e r ⟨m, n, n', hkey, hcolon, hws, hentry⟩ -
      exact ⟨m, n, n', hkey, hcolon, hws, value_of_entry hentry⟩
    · rw [List.map_map]
      exact hdistinct

theorem obj_unique {d d' : ℕ} {l r r' : Bytes} (h : Obj (Value d) l r)
    (h' : Obj (Value d') l r') : r = r' := by
  have hmax := h.mono (Value.mono (Nat.le_max_left d d'))
  have hmax' := h'.mono (Value.mono (Nat.le_max_right d d'))
  have hread := (skipObject_eq_some_iff (reads_value _)).2 hmax
  rw [(skipObject_eq_some_iff (reads_value _)).2 hmax'] at hread
  exact (Option.some.inj hread).symm

/-- A header that breaks off is no JSON object. -/
theorem not_objectText_of_openText {depth : ℕ} {text : Bytes}
    {entries : List (Bytes × Option TensorInfo)} (h : OpenText depth text entries) :
    ¬ObjectText text := by
  rintro ⟨d, l, r, hws, hobject, -⟩
  obtain ⟨-, m, m', hopen, hbody, htext⟩ := h
  have hl : l = 123 :: m := by
    have hnoWs : NoWs l := by
      obtain ⟨m, rfl, -⟩ := hobject
      exact noWs_cons (by decide)
    rw [← hws.skipWs_eq hnoWs, hopen.skipWs_eq (noWs_cons (by decide))]
  subst hl
  have hobject' := hobject.mono (Value.mono (Nat.le_max_left d (depth + 3)))
  have hread := (skipObject_eq_some_iff (reads_value _)).2 hobject'
  have hvalues : Hanging (Keyed fun _ l (_ : Unit) r => Value (max d (depth + 3)) l r) m'
      (entries.map fun entry => (entry.1, ())) := by
    refine htext.map (P := fun _ => True) ?_ fun _ _ => trivial
    rintro l e r ⟨m, n, n', hkey, hcolon, hws, hentry⟩ -
    exact ⟨m, n, n', hkey, hcolon, hws,
      (value_of_entry hentry).mono (Nat.le_max_right d (depth + 3))⟩
  rw [skipObject_hanging (reads_value (max d (depth + 3))) hbody hvalues] at hread
  cases hread

/-- **No proper prefix of an object is one.** Behind an object, an object text has white space. -/
theorem all_isSpace_of_append {text rest : Bytes} (h : ObjectText text)
    (h' : ObjectText (text ++ rest)) : rest.all isSpace = true := by
  obtain ⟨d, l, r, hws, hobject, hr⟩ := h
  obtain ⟨d', l', r', hws', hobject', hr'⟩ := h'
  have hl : l ++ rest = l' := by
    have hnoWs : NoWs (l ++ rest) := by
      obtain ⟨m, rfl, -⟩ := hobject
      exact noWs_cons (by decide)
    have hnoWs' : NoWs l' := by
      obtain ⟨m, rfl, -⟩ := hobject'
      exact noWs_cons (by decide)
    rw [← (hws.append rest).skipWs_eq hnoWs, hws'.skipWs_eq hnoWs']
  subst hl
  obtain rfl := obj_unique (hobject.append rest (Value.append rest)) hobject'
  obtain ⟨w, hw, hall⟩ := hr'
  rw [List.append_nil] at hw
  rw [← hw, List.all_append, Bool.and_eq_true] at hall
  exact hall.2

/-! ### Files -/

def headerLength (file : Bytes) : ℕ := ofLittleEndian (file.take 8)

def headerText (file : Bytes) : Bytes := (file.drop 8).take (headerLength file)

def dataStart (file : Bytes) : ℕ := 8 + headerLength file

def dataSize (file : Bytes) : ℕ := file.length - dataStart file

/-- A file made of a header and data. -/
theorem file_parts {header data file : Bytes} (hlength : header.length < 2 ^ 64)
    (hfile : file = littleEndian 8 header.length ++ header ++ data) :
    headerText file = header ∧ dataStart file = 8 + header.length ∧
      dataSize file = data.length ∧ file.length = 8 + header.length + data.length := by
  have htake : file.take 8 = littleEndian 8 header.length := by
    rw [hfile, List.append_assoc, List.take_left' (length_littleEndian 8 _)]
  have hread : headerLength file = header.length := by
    rw [headerLength, htake, ofLittleEndian_littleEndian hlength]
  have hlen : file.length = 8 + header.length + data.length := by
    rw [hfile, List.length_append, List.length_append, length_littleEndian]
  have hdrop : file.drop 8 = header ++ data := by
    rw [hfile, List.append_assoc, List.drop_left' (length_littleEndian 8 _)]
  refine ⟨?_, ?_, ?_, hlen⟩
  · rw [headerText, hread, hdrop, List.take_left' rfl]
  · rw [dataStart, hread]
  · rw [dataSize, dataStart, hread, hlen, Nat.add_sub_cancel_left]

/-- The data ranges of the tensors. -/
def dataRanges (entries : List (Bytes × Option TensorInfo)) : List (ℕ × ℕ) :=
  (entries.filterMap Prod.snd).map fun info => (info.start, info.finish)

/-- A file in whose header every tensor is described completely. -/
structure WellFormed (file : Bytes) : Prop where
  header : dataStart file ≤ file.length
  text : ObjectText (headerText file)
  entries : ∃ depth entries, HeaderText depth (headerText file) entries

/-- The entries describe the whole data section, within the loader's limits. -/
structure Describes (file : Bytes) (entries : List (Bytes × Option TensorInfo)) : Prop where
  length : headerLength file ≠ 0 ∧ headerLength file ≤ maxHeaderSize
  header : dataStart file ≤ file.length
  fits : ∀ info ∈ entries.filterMap Prod.snd, info.Fits (dataStart file)
  size : ∀ info ∈ entries.filterMap Prod.snd, info.finish = info.start + 4 * info.shape.prod
  tiles : ∃ order : List (ℕ × ℕ), order.Perm (dataRanges entries) ∧ Tiles 0 order (dataSize file)

/-- A file of the format, within the loader's limits. -/
def Legal (file : Bytes) : Prop :=
  ∃ entries, HeaderText maxJsonDepth (headerText file) entries ∧ Describes file entries

/-- A file whose header breaks off and is otherwise as the format asks. -/
def Unclosed (file : Bytes) : Prop :=
  ∃ entries, OpenText maxJsonDepth (headerText file) entries ∧ Describes file entries

/-- A file whose header is a proper prefix of one that ends with its closing brace. -/
def Truncated (file : Bytes) : Prop :=
  ∃ header rest depth entries, HeaderText depth header entries ∧ header.getLast? = some 125 ∧
    header = headerText file ++ rest ∧ rest ≠ []

theorem filterMap_range_keptEntries (start : ℕ) (entries : List (Bytes × Option TensorInfo)) :
    ((keptEntries start entries).filterMap fun entry => entry.2.range?) = dataRanges entries := by
  rw [keptEntries, dataRanges, List.filterMap_map, List.map_filterMap]
  refine List.filterMap_congr ?_
  rintro ⟨name, info⟩ -
  cases info <;> rfl

theorem forall_admissible_iff {start size : ℕ} {entries : List (Bytes × Option TensorInfo)} :
    (∀ entry ∈ entries, Admissible start size entry.2) ↔
      ∀ info ∈ entries.filterMap Prod.snd, info.Fits start ∧ info.Sized size := by
  constructor
  · intro h info hinfo
    obtain ⟨⟨name, _⟩, hmem, rfl⟩ := List.mem_filterMap.1 hinfo
    exact h _ hmem
  · rintro h ⟨name, info⟩ hmem
    cases info with
    | none => trivial
    | some info => exact h info (List.mem_filterMap.2 ⟨_, hmem, rfl⟩)

/-- Ranges that tile the data lie in it, so that tensors of the right size are sized. -/
theorem Describes.admissible {file : Bytes} {entries : List (Bytes × Option TensorInfo)}
    (h : Describes file entries) :
    ∀ entry ∈ entries, Admissible (dataStart file) (dataSize file) entry.2 := by
  rw [forall_admissible_iff]
  intro info hinfo
  obtain ⟨order, hperm, htiles⟩ := h.tiles
  have hmem : (info.start, info.finish) ∈ order :=
    hperm.mem_iff.2 (List.mem_map.2 ⟨info, hinfo, rfl⟩)
  obtain ⟨-, hordered, hwithin⟩ := htiles.bounds.2 _ hmem
  exact ⟨h.fits info hinfo, hordered, hwithin, h.size info hinfo⟩

/-- The tensors that the loader gives for a described file. -/
theorem parseHeader_eq_some {file : Bytes} {entries : List (Bytes × Option TensorInfo)}
    (htext : HeaderText maxJsonDepth (headerText file) entries ∨
      OpenText maxJsonDepth (headerText file) entries) (hdescribes : Describes file entries) :
    parseHeader file =
      some ((keptEntries (dataStart file) entries).filterMap fun entry => entry.2.tensor?) := by
  have hread := parseHeaderText_eq_some_iff.2 ⟨entries, rfl, hdescribes.admissible, htext⟩
  have hcover : ((dataRanges entries).mergeSort rangeLe).foldlM cover 0 = some (dataSize file) :=
    foldlM_cover_eq_some_iff.2 (tiles_mergeSort_iff.2 hdescribes.tiles)
  have hheader := hdescribes.header
  rw [dataStart, headerLength] at hheader
  have hfile : 8 ≤ file.length := by omega
  have hlength : ofLittleEndian (file.take 8) ≤ file.length - 8 := by omega
  refine Option.bind_eq_some_iff.2 ⟨(), (Option.guard_eq_some' ()).2 hfile,
    Option.bind_eq_some_iff.2 ⟨(), (Option.guard_eq_some' ()).2
      ⟨hdescribes.length.1, hdescribes.length.2, hlength⟩,
    Option.bind_eq_some_iff.2 ⟨_, hread, Option.bind_eq_some_iff.2 ⟨dataSize file, ?_,
      Option.bind_eq_some_iff.2 ⟨(), (Option.guard_eq_some' ()).2 rfl, rfl⟩⟩⟩⟩⟩
  rw [filterMap_range_keptEntries]
  exact hcover

/-- The loader's result describes the whole file. -/
theorem parseHeader_eq_some_iff {file : Bytes} {tensors : List Tensor} :
    parseHeader file = some tensors ↔
      ∃ entries, (HeaderText maxJsonDepth (headerText file) entries ∨
        OpenText maxJsonDepth (headerText file) entries) ∧ Describes file entries ∧
          tensors = (keptEntries (dataStart file) entries).filterMap fun entry => entry.2.tensor? := by
  constructor
  · intro h
    obtain ⟨⟨⟩, hfile, h⟩ := Option.bind_eq_some_iff.1 h
    obtain ⟨⟨⟩, hlength, h⟩ := Option.bind_eq_some_iff.1 h
    obtain ⟨result, hread, h⟩ := Option.bind_eq_some_iff.1 h
    obtain ⟨covered, hcover, h⟩ := Option.bind_eq_some_iff.1 h
    obtain ⟨⟨⟩, hcovered, h⟩ := Option.bind_eq_some_iff.1 h
    rw [Option.guard_eq_some'] at hfile hlength hcovered
    obtain ⟨entries, rfl, hadmissible, htext⟩ := parseHeaderText_eq_some_iff.1 hread
    rw [filterMap_range_keptEntries, foldlM_cover_eq_some_iff, hcovered, tiles_mergeSort_iff]
      at hcover
    rw [forall_admissible_iff] at hadmissible
    refine ⟨entries, htext, ⟨⟨hlength.1, hlength.2.1⟩, ?_, fun info h => (hadmissible info h).1,
      fun info h => (hadmissible info h).2.size, hcover⟩, (Option.some.inj h).symm⟩
    have hle := hlength.2.2
    rw [dataStart, headerLength]
    omega
  · rintro ⟨entries, htext, hdescribes, rfl⟩
    exact parseHeader_eq_some htext hdescribes

/-- **What the loader accepts.** -/
theorem parseHeader_isSome_iff {file : Bytes} :
    (parseHeader file).isSome = true ↔ Legal file ∨ Unclosed file := by
  have hor : Legal file ∨ Unclosed file ↔
      ∃ entries, (HeaderText maxJsonDepth (headerText file) entries ∨
        OpenText maxJsonDepth (headerText file) entries) ∧ Describes file entries := by
    simp only [Legal, Unclosed, or_and_right, exists_or]
  rw [hor, Option.isSome_iff_exists]
  constructor
  · rintro ⟨tensors, h⟩
    obtain ⟨entries, htext, hdescribes, -⟩ := parseHeader_eq_some_iff.1 h
    exact ⟨entries, htext, hdescribes⟩
  · rintro ⟨entries, htext, hdescribes⟩
    exact ⟨_, parseHeader_eq_some htext hdescribes⟩

theorem Legal.wellFormed {file : Bytes} (h : Legal file) : WellFormed file := by
  obtain ⟨entries, htext, hdescribes⟩ := h
  exact ⟨hdescribes.header, objectText_of_headerText htext, maxJsonDepth, entries, htext⟩

theorem not_wellFormed_of_unclosed {file : Bytes} (h : Unclosed file) : ¬WellFormed file := by
  obtain ⟨entries, htext, -⟩ := h
  exact fun hformed => not_objectText_of_openText htext hformed.text

/-- A header that is complete is not a proper prefix of another one. -/
theorem not_truncated_of_wellFormed {file : Bytes} (h : WellFormed file) : ¬Truncated file := by
  rintro ⟨header, rest, depth, entries, htext, hlast, rfl, hrest⟩
  have hspace := all_isSpace_of_append h.text (objectText_of_headerText htext)
  rw [List.getLast?_append_of_ne_nil _ hrest] at hlast
  have hmem := List.mem_of_getLast? hlast
  exact absurd (List.all_eq_true.1 hspace _ hmem) (by decide)

/-! ### The loader -/

/-- What is asked of a loader of files of at most so many bytes: it takes well-formed files only,
none with a truncated header, and every file of the format. -/
structure KeepsToFormat (loader : Bytes → Option (List Tensor)) (Size : ℕ → Prop) (file : Bytes) :
    Prop where
  sound : (loader file).isSome = true → WellFormed file
  truncated : Truncated file → loader file = none
  complete : Legal file → Size file.length → (loader file).isSome = true

theorem keepsToFormat_of_isSome_iff {loader : Bytes → Option (List Tensor)} {Size : ℕ → Prop}
    {file : Bytes}
    (h : (loader file).isSome = true ↔ (Legal file ∨ Unclosed file) ∧ Size file.length) :
    KeepsToFormat loader Size file ↔ ¬(Unclosed file ∧ Size file.length) := by
  constructor
  · rintro hmeets ⟨hunclosed, hsize⟩
    exact not_wellFormed_of_unclosed hunclosed (hmeets.sound (h.2 ⟨Or.inr hunclosed, hsize⟩))
  · intro hclosed
    have hformed : (loader file).isSome = true → WellFormed file := by
      intro haccepted
      obtain ⟨hlegal | hunclosed, hsize⟩ := h.1 haccepted
      · exact hlegal.wellFormed
      · exact (hclosed ⟨hunclosed, hsize⟩).elim
    refine ⟨hformed, ?_, fun hlegal hsize => h.2 ⟨Or.inl hlegal, hsize⟩⟩
    intro htruncated
    rw [← Option.not_isSome_iff_eq_none]
    exact fun haccepted => not_truncated_of_wellFormed (hformed haccepted) htruncated

/-- **The loader and the format.** `load` takes files of every size and `load_snapshot` those of
at most `maxBytes`. Both keep to the format on every file, except that they take a file whose
header breaks off where an entry would stand. -/
theorem keepsToFormat_iff (file : Bytes) :
    (KeepsToFormat load (fun _ => True) file ↔ ¬Unclosed file) ∧
      ∀ maxBytes, KeepsToFormat (loadSnapshot maxBytes) (· ≤ maxBytes) file ↔
        ¬(Unclosed file ∧ file.length ≤ maxBytes) := by
  constructor
  · have hload : (load file).isSome = true ↔ (Legal file ∨ Unclosed file) ∧ True := by
      rw [and_true]
      exact parseHeader_isSome_iff
    rw [keepsToFormat_of_isSome_iff hload, and_true]
  · intro maxBytes
    refine keepsToFormat_of_isSome_iff ?_
    rw [loadSnapshot, ← parseHeader_isSome_iff, Option.isSome_iff_exists]
    constructor
    · rintro ⟨tensors, h⟩
      obtain ⟨⟨⟩, hsize, h⟩ := Option.bind_eq_some_iff.1 h
      rw [Option.guard_eq_some'] at hsize
      exact ⟨Option.isSome_iff_exists.2 ⟨tensors, h⟩, hsize.2⟩
    · rintro ⟨haccepted, hsize⟩
      obtain ⟨tensors, h⟩ := Option.isSome_iff_exists.1 haccepted
      obtain ⟨⟨⟩, hfile, -⟩ := Option.bind_eq_some_iff.1 h
      rw [Option.guard_eq_some'] at hfile
      exact ⟨tensors, Option.bind_eq_some_iff.2
        ⟨(), (Option.guard_eq_some' ()).2 ⟨hfile, hsize⟩, h⟩⟩

/-- A file of nine bytes whose header is an opening brace alone. -/
def openBraceFile : Bytes := [1, 0, 0, 0, 0, 0, 0, 0, 123]

theorem not_keepsToFormat_openBraceFile : ¬KeepsToFormat load (fun _ => True) openBraceFile := by
  intro h
  have hopen : OpenText maxJsonDepth (headerText openBraceFile) [] :=
    ⟨by simp, [], [], Ws.refl _, Ws.refl _, .nil⟩
  have hunclosed : Unclosed openBraceFile := by
    refine ⟨[], hopen, ⟨by decide, by decide⟩, by decide, by simp, by simp, [], ?_, ?_⟩
    · exact List.Perm.refl _
    · change 0 = dataSize openBraceFile
      decide
  exact not_wellFormed_of_unclosed hunclosed
    (h.sound (parseHeader_isSome_iff.2 (Or.inr hunclosed)))

end Resonantia.Io.Safetensors
