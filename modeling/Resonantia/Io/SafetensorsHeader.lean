import Mathlib.Data.Nat.Notation
import Mathlib.Data.Option.Basic
import Mathlib.Tactic.SplitIfs
import Resonantia.Library.Json

/-!
# Reading safetensors files

The loader of safetensors files: eight bytes of header length, a JSON header and the tensor data.
A position in the header is the list of bytes from there on. A run of a `while` loop takes at
least one byte each turn, so the bytes at its start bound the number of turns.

## Main definitions

* `Io.Safetensors.parseString`, `Io.Safetensors.parseUint64`, `Io.Safetensors.skipValue`,
  `Io.Safetensors.parseShape`, `Io.Safetensors.parseOffsets`, `Io.Safetensors.parseTensor`: the
  scanner of the header.
* `Io.Safetensors.parseHeader`, `Io.Safetensors.load`, `Io.Safetensors.loadSnapshot`: the loader.
-/

namespace Resonantia.Io.Safetensors

open ByteString Json

/-! ### Leaves -/

/-- Four hexadecimal digits in front. -/
def parseHex4 : Bytes → Option (ℕ × Bytes)
  | a :: b :: c :: d :: l => (hex4 a b c d).map fun n => (n, l)
  | _ => none

/-- The low half of a surrogate pair, an escape of its own. -/
def parseLowSurrogate : Bytes → Option (ℕ × Bytes)
  | x :: y :: l =>
    if x = 92 ∧ y = 117 then
      match parseHex4 l with
      | none => none
      | some (low, l) => if LowSurrogate low then some (low, l) else none
    else none
  | _ => none

/-- The `u` escape after its letter. -/
def parseCodePoint (l : Bytes) : Option (ℕ × Bytes) :=
  match parseHex4 l with
  | none => none
  | some (n, l) =>
    if HighSurrogate n then (parseLowSurrogate l).map fun p => (surrogatePair n p.1, p.2)
    else if LowSurrogate n then none
    else some (n, l)

/-- An escape after its backslash: the bytes that it denotes, and the rest. -/
def parseEscape : Bytes → Option (Bytes × Bytes)
  | [] => none
  | escaped :: l =>
    if escaped = 117 then
      match parseCodePoint l with
      | none => none
      | some (n, l) => (utf8 n).map fun u => (u, l)
    else (simpleEscape escaped).map fun b => ([b], l)

theorem length_le_of_parseHex4 {l r : Bytes} {n : ℕ} (h : parseHex4 l = some (n, r)) :
    r.length ≤ l.length := by
  rw [parseHex4.eq_def] at h
  split at h
  · obtain ⟨_, -, heq⟩ := Option.map_eq_some_iff.1 h
    obtain ⟨-, rfl⟩ := Prod.mk.inj heq
    simp only [List.length_cons]
    omega
  · cases h

theorem length_le_of_parseLowSurrogate {l r : Bytes} {n : ℕ}
    (h : parseLowSurrogate l = some (n, r)) : r.length ≤ l.length := by
  rw [parseLowSurrogate.eq_def] at h
  split at h
  · split_ifs at h
    split at h
    · cases h
    · rename_i hhex
      split_ifs at h
      obtain ⟨-, rfl⟩ := Prod.mk.inj (Option.some.inj h)
      have hle := length_le_of_parseHex4 hhex
      simp only [List.length_cons]
      omega
  · cases h

theorem length_le_of_parseCodePoint {l r : Bytes} {n : ℕ}
    (h : parseCodePoint l = some (n, r)) : r.length ≤ l.length := by
  rw [parseCodePoint] at h
  split at h
  · cases h
  · rename_i hhex
    have hle := length_le_of_parseHex4 hhex
    split_ifs at h
    · obtain ⟨low, hlow, heq⟩ := Option.map_eq_some_iff.1 h
      obtain ⟨-, rfl⟩ := Prod.mk.inj heq
      exact Nat.le_trans (length_le_of_parseLowSurrogate hlow) hle
    · obtain ⟨-, rfl⟩ := Prod.mk.inj (Option.some.inj h)
      exact hle

theorem length_lt_of_parseEscape {l u r : Bytes} (h : parseEscape l = some (u, r)) :
    r.length < l.length := by
  cases l with
  | nil => cases h
  | cons escaped l =>
    rw [parseEscape] at h
    rw [List.length_cons]
    split_ifs at h
    · split at h
      · cases h
      · rename_i hpoint
        have hle := length_le_of_parseCodePoint hpoint
        obtain ⟨_, -, heq⟩ := Option.map_eq_some_iff.1 h
        obtain ⟨-, rfl⟩ := Prod.mk.inj heq
        omega
    · obtain ⟨_, -, heq⟩ := Option.map_eq_some_iff.1 h
      obtain ⟨-, rfl⟩ := Prod.mk.inj heq
      omega

/-- The loop of `parse_string`, after the opening mark. -/
def parseBody (l : Bytes) : Option (Bytes × Bytes) :=
  match l with
  | [] => none
  | c :: l =>
    if c = 34 then some ([], l)
    else if c < 32 then none
    else if c ≠ 92 then (parseBody l).map fun p => (c :: p.1, p.2)
    else
      match h : parseEscape l with
      | none => none
      | some (u, rest) =>
        have : rest.length < (c :: l).length :=
          Nat.lt_succ_of_lt (length_lt_of_parseEscape h)
        (parseBody rest).map fun p => (u ++ p.1, p.2)
termination_by l.length
decreasing_by all_goals simp only [List.length_cons] at *; omega

/-- `parse_string`. -/
def parseString : Bytes → Option (Bytes × Bytes)
  | [] => none
  | c :: l => if c = 34 then parseBody l else none

/-- The digit loop of `parse_uint64`, with its overflow check. -/
def accumulate : ℕ → Bytes → Option (ℕ × Bytes)
  | value, [] => some (value, [])
  | value, c :: l =>
    if isDigit c then
      let digit := c.toNat - 48
      if (2 ^ 64 - 1 - digit) / 10 < value then none
      else accumulate (value * 10 + digit) l
    else some (value, c :: l)

/-- `parse_uint64`. -/
def parseUint64 (l : Bytes) : Option (ℕ × Bytes) :=
  match skipWs l with
  | [] => none
  | c :: m =>
    if ¬isDigit c then none
    else if c = 48 ∧ m.head?.any isDigit then none
    else accumulate 0 (c :: m)

/-- One or more digits. -/
def skipDigits1 : Bytes → Option Bytes
  | [] => none
  | c :: l => if isDigit c then some (l.dropWhile isDigit) else none

def skipSign : Bytes → Bytes
  | [] => []
  | c :: l => if c = 45 then l else c :: l

def skipInteger : Bytes → Option Bytes
  | [] => none
  | c :: l => if c = 48 then some l else if isDigit c then some (l.dropWhile isDigit) else none

def skipFraction : Bytes → Option Bytes
  | [] => some []
  | c :: l => if c = 46 then skipDigits1 l else some (c :: l)

def skipExponent : Bytes → Option Bytes
  | [] => some []
  | e :: l =>
    if e = 101 ∨ e = 69 then
      match l with
      | [] => none
      | c :: l => if c = 43 ∨ c = 45 then skipDigits1 l else skipDigits1 (c :: l)
    else some (e :: l)

/-- `skip_number`. -/
def skipNumber (l : Bytes) : Option Bytes := do
  let l ← skipInteger (skipSign l)
  let l ← skipFraction l
  skipExponent l

/-- The literals of `skip_value`. -/
def skipLiteral (l : Bytes) : Option Bytes :=
  (literals.find? fun w => w <+: l).map fun w => l.drop w.length

/-! ### Loops -/

section

variable {α β : Type}

/-- The loops over the items of an array or object. An item is added to what was read before it;
then the closing bracket ends the loop, and a comma leads on. A loop that finds the input used up
at its top ends there too: the skipping functions then fail (`openEnd` is `false`), while
`parse_tensor` and `parse_header` go on behind the loop. -/
def loop (item : Bytes → Option (α × Bytes)) (add : β → α → Option β) (close : UInt8)
    (openEnd : Bool) : ℕ → β → Bytes → Option (β × Bytes)
  | _, state, [] => if openEnd then some (state, []) else none
  | 0, _, _ :: _ => none
  | turns + 1, state, c :: l =>
    match item (c :: l) with
    | none => none
    | some (a, l) =>
      match add state a with
      | none => none
      | some state =>
        match skipWs l with
        | [] => none
        | c :: l =>
          if c = close then some (state, l)
          else if c = 44 then loop item add close openEnd turns state (skipWs l)
          else none

/-- The start of the loops: an empty array or object, or its items. -/
def items (item : Bytes → Option (α × Bytes)) (add : β → α → Option β) (close : UInt8)
    (openEnd : Bool) (state : β) (l : Bytes) : Option (β × Bytes) :=
  let l := skipWs l
  if l.head? = some close then some (state, l.tail)
  else loop item add close openEnd l.length state l

/-- A key, a colon and the value that belongs to it. -/
def keyed (value : Bytes → Bytes → Option (α × Bytes)) (l : Bytes) :
    Option ((Bytes × α) × Bytes) :=
  match parseString l with
  | none => none
  | some (key, l) =>
    match skipWs l with
    | [] => none
    | c :: l =>
      if c = 58 then (value key (skipWs l)).map fun p => ((key, p.1), p.2) else none

/-- Keys must not be repeated. -/
def addUnique (entries : List (Bytes × α)) (entry : Bytes × α) : Option (List (Bytes × α)) :=
  if entry.1 ∈ entries.map Prod.fst then none else some (entries ++ [entry])

end

/-! ### Values that are skipped -/

/-- A reader that keeps nothing of what it read. -/
def ignoring (skip : Bytes → Option Bytes) (l : Bytes) : Option (Unit × Bytes) :=
  (skip l).map fun l => ((), l)

/-- `skip_array`, with the reader of its elements. -/
def skipArray (value : Bytes → Option Bytes) : Bytes → Option Bytes
  | [] => none
  | c :: l =>
    if c = 91 then
      (items (ignoring value) (fun _ _ => some ()) 93 false () l).map Prod.snd
    else none

/-- `skip_object`, with the reader of its members. -/
def skipObject (value : Bytes → Option Bytes) : Bytes → Option Bytes
  | [] => none
  | c :: l =>
    if c = 123 then
      (items (keyed fun _ => ignoring value) addUnique 125 false [] l).map Prod.snd
    else none

/-- `skip_value` with this many levels left: `kMaxJsonDepth + 1` less the depth. -/
def skipValue : ℕ → Bytes → Option Bytes
  | 0, _ => none
  | levels + 1, l =>
    match skipWs l with
    | [] => none
    | c :: l =>
      if c = 123 then skipObject (skipValue levels) (c :: l)
      else if c = 91 then skipArray (skipValue levels) (c :: l)
      else if c = 34 then (parseString (c :: l)).map Prod.snd
      else if c = 45 ∨ isDigit c then skipNumber (c :: l)
      else skipLiteral (c :: l)

def maxJsonDepth : ℕ := 64

/-! ### Tensors -/

def maxTensorRank : ℕ := 32

/-- One dimension of `parse_shape`. -/
def addDimension (shape : List ℕ) (dim : ℕ) : Option (List ℕ) :=
  if maxTensorRank ≤ shape.length then none
  else if 2 ^ 63 ≤ dim then none
  else some (shape ++ [dim])

/-- `parse_shape`. -/
def parseShape : Bytes → Option (List ℕ × Bytes)
  | [] => none
  | c :: l => if c = 91 then items parseUint64 addDimension 93 false [] l else none

/-- The next byte other than white space must be this one. -/
def expect (c : UInt8) (l : Bytes) : Option Bytes :=
  if (skipWs l).head? = some c then some (skipWs l).tail else none

/-- `parse_offsets`. -/
def parseOffsets : Bytes → Option ((ℕ × ℕ) × Bytes)
  | [] => none
  | c :: l => do
    guard (c = 91)
    let (start, l) ← parseUint64 l
    let l ← expect 44 l
    let (finish, l) ← parseUint64 l
    let l ← expect 93 l
    return ((start, finish), l)

/-- What a member of a tensor object says. -/
inductive TensorField
  | dtype (value : Bytes)
  | shape (dims : List ℕ)
  | offsets (start finish : ℕ)
  | other
deriving DecidableEq, Repr

/-- The value of one member of a tensor object. -/
def tensorField (key : Bytes) (l : Bytes) : Option (TensorField × Bytes) :=
  if key = bytes "dtype" then (parseString l).map fun p => (.dtype p.1, p.2)
  else if key = bytes "shape" then (parseShape l).map fun p => (.shape p.1, p.2)
  else if key = bytes "data_offsets" then
    (parseOffsets l).map fun p => (.offsets p.1.1 p.1.2, p.2)
  else (skipValue maxJsonDepth l).map fun l => (.other, l)

structure Tensor where
  name : Bytes
  dtype : Bytes
  shape : List ℕ
  strides : List ℕ
  dataOffset : ℕ
  dataNbytes : ℕ
deriving DecidableEq, Repr

/-- The stride loop from the last dimension to the first: the strides so far, the next stride and
the number of elements, with the overflow checks. -/
def addStride (dim : ℕ) (state : List ℕ × ℕ × ℕ) : Option (List ℕ × ℕ × ℕ) := do
  let (strides, stride, elements) := state
  guard (stride < 2 ^ 63)
  guard (stride * dim < 2 ^ 64)
  guard (elements * dim < 2 ^ 64)
  return (stride :: strides, stride * dim, elements * dim)

/-- The checks of `parse_tensor` after its loop. -/
def finishTensor (name : Bytes) (dataStart dataSize : ℕ) (fields : List (Bytes × TensorField)) :
    Option (Tensor × ℕ × ℕ) :=
  match fields.lookup (bytes "dtype"), fields.lookup (bytes "shape"),
      fields.lookup (bytes "data_offsets") with
  | some (.dtype dtype), some (.shape shape), some (.offsets start finish) => do
    guard (dtype = bytes "F32")
    guard (start ≤ finish ∧ finish ≤ dataSize)
    let (strides, _, elements) ← shape.foldrM addStride ([], 4, 1)
    guard (elements * 4 < 2 ^ 64)
    guard (finish - start = elements * 4)
    guard (dataStart + start < 2 ^ 64)
    return (⟨name, dtype, shape, strides, dataStart + start, elements * 4⟩, start, finish)
  | _, _, _ => none

/-- `parse_tensor`. An empty object is refused like any other without the three fields. -/
def parseTensor (name : Bytes) (dataStart dataSize : ℕ) :
    Bytes → Option ((Tensor × ℕ × ℕ) × Bytes)
  | [] => none
  | c :: l =>
    if c = 123 then
      match items (keyed tensorField) addUnique 125 true [] l with
      | none => none
      | some (fields, l) => (finishTensor name dataStart dataSize fields).map fun t => (t, l)
    else none

/-! ### Files -/

/-- What a member of the header says. -/
inductive HeaderEntry
  | metadata
  | tensor (tensor : Tensor) (start finish : ℕ)
deriving DecidableEq, Repr

def metadataKey : Bytes := bytes "__metadata__"

/-- The value of one member of the header. -/
def headerEntry (dataStart dataSize : ℕ) (name l : Bytes) : Option (HeaderEntry × Bytes) :=
  if name = metadataKey then
    (skipObject (skipValue (maxJsonDepth - 1)) l).map fun l => (.metadata, l)
  else
    (parseTensor name dataStart dataSize l).map fun p => (.tensor p.1.1 p.1.2.1 p.1.2.2, p.2)

/-- The members of the header. Behind the closing brace only white space may follow. -/
def parseHeaderText (dataStart dataSize : ℕ) (header : Bytes) :
    Option (List (Bytes × HeaderEntry)) :=
  match skipWs header with
  | [] => none
  | c :: l =>
    if c = 123 then
      match items (keyed (headerEntry dataStart dataSize)) addUnique 125 true [] l with
      | none => none
      | some (entries, l) => if skipWs l = [] then some entries else none
    else none

def HeaderEntry.tensor? : HeaderEntry → Option Tensor
  | .metadata => none
  | .tensor t _ _ => some t

def HeaderEntry.range? : HeaderEntry → Option (ℕ × ℕ)
  | .metadata => none
  | .tensor _ start finish => some (start, finish)

/-- The order of `std::pair`. -/
def rangeLe (a b : ℕ × ℕ) : Bool := a.1 < b.1 || (a.1 = b.1 && a.2 ≤ b.2)

/-- The end of the ranges if each starts where the one before it ends. -/
def cover (covered : ℕ) (range : ℕ × ℕ) : Option ℕ :=
  if range.1 ≠ covered ∨ range.2 < range.1 then none else some range.2

def maxHeaderSize : ℕ := 100000000

/-- `parse_header`. -/
def parseHeader (file : Bytes) : Option (List Tensor) := do
  guard (8 ≤ file.length)
  let length := ofLittleEndian (file.take 8)
  guard (length ≠ 0 ∧ length ≤ maxHeaderSize ∧ length ≤ file.length - 8)
  let dataStart := 8 + length
  let dataSize := file.length - dataStart
  let entries ← parseHeaderText dataStart dataSize ((file.drop 8).take length)
  let ranges := (entries.filterMap fun entry => entry.2.range?).mergeSort rangeLe
  let covered ← ranges.foldlM cover 0
  guard (covered = dataSize)
  return entries.filterMap fun entry => entry.2.tensor?

/-- `SafetensorsLoader::load` of a regular file of 64-bit size that can be mapped. -/
def load (file : Bytes) : Option (List Tensor) := parseHeader file

/-- `SafetensorsLoader::load_snapshot` of a file that does not change meanwhile. -/
def loadSnapshot (maxBytes : ℕ) (file : Bytes) : Option (List Tensor) := do
  guard (8 ≤ file.length ∧ file.length ≤ maxBytes)
  parseHeader file

/-- `SafetensorsLoader::data`: the bytes of a tensor, if the file holds them. -/
def Tensor.data? (file : Bytes) (tensor : Tensor) : Option Bytes :=
  if file.length < tensor.dataOffset ∨ file.length - tensor.dataOffset < tensor.dataNbytes then none
  else some ((file.drop tensor.dataOffset).take tensor.dataNbytes)

end Resonantia.Io.Safetensors
