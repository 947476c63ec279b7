import Resonantia.Io.BlockFiles
import Resonantia.Library.FloatArithmetic
import Resonantia.Library.InputStream

/-!
# The run state of a training

The part of a training checkpoint that decides which clip, which crop and which learning rate come
next. Each epoch visits the clips in an order of its own; the orders and the crops draw from one
random engine. The state is serialized into a bounded text.

## Main definitions

* `Training.Mt19937`: the state of the random engine and its text.
* `Training.Dice`, `Training.FloatText`: what the standard library leaves to its implementation.
* `Training.RunState`: the state, with the operations of the source.

## Main results

* `Training.RunState.validate_eq_ok_iff`: what `validate` accepts.
* `Training.RunState.parse_text`: parsing undoes serializing.
-/

namespace Resonantia.Training

open ByteString InputStream BinaryFloat

/-! ### The random engine -/

/-- The state of `std::mt19937`: 624 words and a position. -/
structure Mt19937 where
  words : List UInt64
  position : UInt64
  length_words : words.length = 624
deriving DecidableEq

namespace Mt19937

/-- The words after a first one. -/
def fill : ℕ → ℕ → ℕ → List UInt64
  | 0, _, _ => []
  | n + 1, i, previous =>
    let word := (1812433253 * (previous ^^^ (previous >>> 30)) + i) % 2 ^ 32
    UInt64.ofNat word :: fill n (i + 1) word

theorem length_fill (n i previous : ℕ) : (fill n i previous).length = n := by
  induction n generalizing i previous with
  | zero => rfl
  | succ n ih => rw [fill, List.length_cons, ih]

def seed (value : UInt32) : Mt19937 where
  words := UInt64.ofNat value.toNat :: fill 623 1 value.toNat
  position := 624
  length_words := by rw [List.length_cons, length_fill]

def wordText (word : UInt64) : Bytes := Json.decimalText word.toNat

/-- `<<`: every word with a blank behind it, then the position. -/
def text (engine : Mt19937) : Bytes :=
  (engine.words.flatMap fun word => wordText word ++ [32]) ++ wordText engine.position

def readWord (s : Bytes) : Option (UInt64 × Bytes) :=
  (readNat (2 ^ 64) s).map fun v => (UInt64.ofNat v.1, v.2)

/-- `>>`. -/
def read (s : Bytes) : Option (Mt19937 × Bytes) :=
  (readList readWord 624 s).bind fun words =>
    (readWord words.2).bind fun position =>
      if h : words.1.length = 624 then some (⟨words.1, position.1, h⟩, position.2) else none

theorem readsBack_word (word : UInt64) : ReadsBack readWord (wordText word) word := by
  intro w rest hw hrest
  rw [readWord, wordText, readsBack_nat word.toNat_lt w rest hw hrest,
    Option.map_some, UInt64.ofNat_toNat]

/-- The engine is read back from its text. -/
theorem readsBack_text (engine : Mt19937) : ReadsBack read engine.text engine := by
  intro w rest hw hrest
  have hwords := ReadsBack.list (fun word _ => readsBack_word word) (l := engine.words) w
    (wordText engine.position ++ rest) hw
  have hne : engine.words ≠ [] := by
    intro hnil
    have hlength := engine.length_words
    rw [hnil] at hlength
    cases hlength
  rw [engine.length_words, if_neg hne] at hwords
  rw [read, text, List.append_assoc, hwords, Option.bind_some,
    readsBack_word engine.position [32] rest space_blank hrest, Option.bind_some,
    dif_pos engine.length_words]

end Mt19937

/-! ### The standard library -/

/-- The algorithms that draw from an engine. -/
structure Dice where
  shuffle : List ℤ → Mt19937 → List ℤ × Mt19937
  uniformInt : ℤ → ℤ → Mt19937 → ℤ × Mt19937

/-- A shuffled range holds the same elements. -/
def Dice.Shuffles (dice : Dice) : Prop := ∀ l engine, (dice.shuffle l engine).1.Perm l

/-- The text form of a number with nine significant digits. -/
structure FloatText where
  write : Number binary32 → Bytes
  read : Bytes → Option (Number binary32 × Bytes)

/-- The number is read back from its text, which is short. -/
structure FloatText.Lossless (floats : FloatText) (x : Number binary32) : Prop where
  readsBack : ReadsBack floats.read (floats.write x) x
  short : (floats.write x).length ≤ 64

/-! ### The state -/

structure RunState where
  identity : Bytes
  epochs : ℤ := 0
  step : ℤ := 0
  initialLr : Number binary32
  decay : Number binary32
  order : List ℤ
  random : Mt19937
deriving DecidableEq

namespace RunState

def epoch (s : RunState) : ℤ := s.step.tdiv s.order.length

def slot (s : RunState) : ℤ := s.step.tmod s.order.length

def done (s : RunState) : Bool := s.step = s.epochs * s.order.length

/-- `current_clip`; `at` is bounded. -/
def currentClip (s : RunState) : Except String ℤ :=
  if s.done then .error "training already complete"
  else (s.order[s.slot.toNat]?).elim (.error "out of range") .ok

/-- `crop`: the offset, and the state after the draw. -/
def crop (dice : Dice) (frames : ℤ) (s : RunState) : Except String ℤ × RunState :=
  if s.done = true ∨ frames < 32 ∨ frames > 600 then (.error "invalid crop request", s)
  else
    let (offset, random) := dice.uniformInt 0 (frames - 32) s.random
    (.ok offset, { s with random })

/-- `advance`: a new epoch has a new order. -/
def advance (dice : Dice) (s : RunState) : Except String Unit × RunState :=
  if s.done then (.error "training already complete", s)
  else
    let s : RunState := { s with step := s.step + 1 }
    if s.slot = 0 ∧ s.done = false then
      let (order, random) := dice.shuffle s.order s.random
      (.ok (), { s with order, random })
    else (.ok (), s)

/-- The learning rate after some epochs. -/
def rateAfter (initialLr decay : Number binary32) : ℕ → Number binary32
  | 0 => initialLr
  | n + 1 => (rateAfter initialLr decay n).mul decay

/-- `learning_rate`. -/
def learningRate (s : RunState) : Except String Single :=
  match rateAfter s.initialLr s.decay s.epoch.toNat with
  | none => .error "learning rate underflow"
  | some value => if value.value ≤ 0 then .error "learning rate underflow" else .ok value

/-- A finite number above zero and up to one. -/
def isRate : Number binary32 → Bool
  | none => false
  | some x => 0 < x.value && x.value ≤ 1

/-- `validate`. -/
def validate (s : RunState) : Except String Unit :=
  if Io.BlockFiles.validDigest s.identity = false ∨ s.order = [] ∨ s.order.length > 4096 ∨ s.epochs < 1 ∨
      s.epochs > 2000 ∨ s.step < 0 ∨ s.step > s.epochs * s.order.length ∨
      isRate s.initialLr = false ∨ isRate s.decay = false then
    .error "invalid joint-full state"
  else if s.order.mergeSort ≠ (List.range s.order.length).map Int.ofNat then
    .error "invalid clip permutation"
  else s.learningRate.map fun _ => ()

/-- `begin`. -/
def begin (dice : Dice) (id : Bytes) (clips epochCount : ℤ) (seed : UInt32)
    (lr lrDecay : Number binary32) : Except String RunState :=
  if clips < 1 ∨ clips > 4096 then .error "joint-full requires 1..4096 clips"
  else
    let (order, random) :=
      dice.shuffle ((List.range clips.toNat).map Int.ofNat) (Mt19937.seed seed)
    let s : RunState :=
      { identity := id, epochs := epochCount, initialLr := lr, decay := lrDecay, order, random }
    s.validate.map fun _ => s

/-! ### The text -/

/-- The bytes of a state. -/
def text (floats : FloatText) (s : RunState) : Bytes :=
  bytes "RESONANTIA_JOINT_RUN 1\n" ++ s.identity ++ [32] ++ intText s.epochs ++ [32] ++
    intText s.step ++ [32] ++ floats.write s.initialLr ++ [32] ++ floats.write s.decay ++ [32] ++
    intText s.order.length ++ [10] ++ (s.order.flatMap fun i => intText i ++ [32]) ++ [10] ++
    s.random.text ++ [10]

/-- `serialize`. -/
def serialize (floats : FloatText) (s : RunState) : Except String Bytes :=
  match s.validate with
  | .error message => .error message
  | .ok () =>
    if (s.text floats).length > 65536 then .error "run state exceeds bound"
    else .ok (s.text floats)

/-- `>>` into an `int`. -/
def readInt32 (s : Bytes) : Option (ℤ × Bytes) := readInt (-2147483648) 2147483647 s

/-- The fields in front of the order. -/
def readHeader (floats : FloatText) (s : Bytes) :
    Option ((Bytes × ℤ × ℤ × Number binary32 × Number binary32 × ℤ) × Bytes) := do
  let (magic, s) ← readToken s
  let (version, s) ← readInt32 s
  if magic ≠ bytes "RESONANTIA_JOINT_RUN" ∨ version ≠ 1 then none
  let (identity, s) ← readToken s
  let (epochs, s) ← readInt32 s
  let (step, s) ← readInt32 s
  let (initialLr, s) ← floats.read s
  let (decay, s) ← floats.read s
  let (n, s) ← readInt32 s
  if n < 1 ∨ n > 4096 then none
  return ((identity, epochs, step, initialLr, decay, n), s)

/-- `parse`. -/
def parse (floats : FloatText) (text : Bytes) : Except String RunState :=
  if text = [] ∨ text.length > 65536 then .error "run state exceeds bound"
  else
    match readHeader floats text with
    | none => .error "invalid run state header"
    | some ((identity, epochs, step, initialLr, decay, n), s) =>
      match readList readInt32 n.toNat s with
      | none => .error "truncated permutation"
      | some (order, s) =>
        match Mt19937.read s with
        | none => .error "invalid crop RNG"
        | some (random, s) =>
          if skipWs s ≠ [] then .error "trailing run state"
          else
            let state : RunState := { identity, epochs, step, initialLr, decay, order, random }
            state.validate.map fun _ => state

/-! ### Valid states -/

/-- The checks of `validate`, the learning rate apart. -/
structure Regular (s : RunState) : Prop where
  identity : Io.BlockFiles.validDigest s.identity = true
  clips : s.order ≠ [] ∧ s.order.length ≤ 4096
  epochs : 1 ≤ s.epochs ∧ s.epochs ≤ 2000
  step : 0 ≤ s.step ∧ s.step ≤ s.epochs * s.order.length
  rates : isRate s.initialLr = true ∧ isRate s.decay = true
  order : s.order.Perm ((List.range s.order.length).map Int.ofNat)

theorem mergeSort_eq_range_iff (l : List ℤ) :
    l.mergeSort = (List.range l.length).map Int.ofNat ↔
      l.Perm ((List.range l.length).map Int.ofNat) := by
  constructor
  · intro h
    rw [← h]
    exact (List.mergeSort_perm l _).symm
  · intro h
    have hsorted : ((List.range l.length).map Int.ofNat).Pairwise (· ≤ ·) := by
      rw [List.pairwise_map]
      exact List.pairwise_lt_range.imp fun hlt => Int.ofNat_le.2 (Nat.le_of_lt hlt)
    have hmerge : (l.mergeSort).Pairwise (· ≤ ·) :=
      (List.pairwise_mergeSort (fun a b c hab hbc => by
        simp only [decide_eq_true_eq] at *; omega)
        (fun a b => by simp only [Bool.or_eq_true, decide_eq_true_eq]; omega) l).imp
        fun hab => of_decide_eq_true hab
    exact List.Perm.eq_of_pairwise (fun a b _ _ hab hba => Int.le_antisymm hab hba) hmerge hsorted
      ((List.mergeSort_perm l _).trans h)

theorem validate_eq_ok_iff {s : RunState} :
    s.validate = .ok () ↔ s.Regular ∧ ∃ value, s.learningRate = .ok value := by
  rw [validate]
  split_ifs with hbounds horder
  · refine ⟨fun h => absurd h (by simp), fun ⟨h, _⟩ => ?_⟩
    obtain ⟨hidentity, hclips, hepochs, hstep, hrates, -⟩ := h
    rw [hidentity, hrates.1, hrates.2] at hbounds
    simp only [Bool.true_eq_false, false_or, or_false] at hbounds
    rcases hbounds with hnil | hbounds
    · exact absurd hnil hclips.1
    · omega
  · refine ⟨fun h => absurd h (by simp), fun ⟨h, _⟩ => ?_⟩
    exact absurd ((mergeSort_eq_range_iff s.order).2 h.order) horder
  · simp only [not_or, Bool.not_eq_false] at hbounds
    obtain ⟨hidentity, hnil, hclips, h₁, h₂, h₃, h₄, hlr, hdecay⟩ := hbounds
    have hregular : s.Regular :=
      ⟨hidentity, ⟨hnil, by omega⟩, by omega, by omega, ⟨hlr, hdecay⟩,
        (mergeSort_eq_range_iff s.order).1 (not_not.1 horder)⟩
    cases hrate : s.learningRate with
    | error message => simp [Except.map]
    | ok value => simp [Except.map, hregular]

/-! ### Learning rates -/

theorem learningRate_eq_ok_iff {s : RunState} {value : Single} :
    s.learningRate = .ok value ↔
      rateAfter s.initialLr s.decay s.epoch.toNat = some value ∧ 0 < value.value := by
  rw [learningRate]
  cases rateAfter s.initialLr s.decay s.epoch.toNat with
  | none => simp
  | some x =>
    dsimp only
    split_ifs with hle
    · simp only [Option.some.injEq, false_iff, not_and, not_lt]
      rintro rfl
      exact hle
    · simp only [Except.ok.injEq, Option.some.injEq]
      constructor
      · rintro rfl
        exact ⟨rfl, not_le.1 hle⟩
      · exact And.left

theorem isPositive_of_isRate {x : Number binary32} (h : isRate x = true) : x.IsPositive := by
  cases x with
  | none => cases h
  | some y =>
    rw [isRate, Bool.and_eq_true, decide_eq_true_eq] at h
    exact ⟨y, rfl, h.1⟩

/-- A rate that is positive after some epochs was positive after fewer. -/
theorem isPositive_rateAfter_of_le {initialLr decay : Number binary32} (hdecay : decay.IsPositive)
    {k n : ℕ} (hk : k ≤ n) (h : (rateAfter initialLr decay n).IsPositive) :
    (rateAfter initialLr decay k).IsPositive := by
  induction n with
  | zero => rwa [Nat.le_zero.1 hk]
  | succ n ih =>
    rcases Nat.le_succ_iff.1 hk with hle | rfl
    · exact ih hle (Number.IsPositive.of_mul hdecay h)
    · exact h

/-! ### Serializing and parsing -/

theorem serialize_eq_ok_iff {floats : FloatText} {s : RunState} {text : Bytes} :
    s.serialize floats = .ok text ↔
      s.validate = .ok () ∧ (s.text floats).length ≤ 65536 ∧ s.text floats = text := by
  rw [serialize]
  cases hvalid : s.validate with
  | error message => simp
  | ok =>
    dsimp only
    split_ifs with hlength
    · simp only [true_and, false_iff, not_and]
      omega
    · simp only [Except.ok.injEq, true_and]
      exact ⟨fun h => ⟨by omega, h⟩, And.right⟩

/-- A digest has no white space. -/
theorem Regular.identity_chars {s : RunState} (h : s.Regular) :
    s.identity ≠ [] ∧ ∀ c ∈ s.identity, isSpace c = false := by
  have hdigest := h.identity
  rw [Io.BlockFiles.validDigest, Bool.and_eq_true, beq_iff_eq, List.all_eq_true] at hdigest
  refine ⟨fun hnil => ?_, fun c hc => ?_⟩
  · rw [hnil] at hdigest
    exact absurd hdigest.1 (by decide)
  · have hhex := hdigest.2 c hc
    simp only [Io.BlockFiles.isHexByte, Bool.or_eq_true, Bool.and_eq_true, decide_eq_true_eq,
      UInt8.le_iff_toNat_le] at hhex
    have hzero : (48 : UInt8).toNat = 48 := rfl
    have ha : (97 : UInt8).toNat = 97 := rfl
    exact isSpace_of_lt (by omega)

/-- The clips are small numbers. -/
theorem Regular.mem_order {s : RunState} (h : s.Regular) {i : ℤ} (hi : i ∈ s.order) :
    0 ≤ i ∧ i < 4096 := by
  obtain ⟨k, hk, rfl⟩ := List.mem_map.1 (h.order.mem_iff.1 hi)
  have hlt := List.mem_range.1 hk
  have hclips := h.clips.2
  exact ⟨Int.natCast_nonneg k, by rw [Int.ofNat_eq_natCast]; omega⟩

/-- The numbers of the header are in the range of an `int`. -/
theorem Regular.header {s : RunState} (h : s.Regular) :
    s.epochs ≤ 2000 ∧ s.step ≤ 2000 * 4096 ∧ 1 ≤ (s.order.length : ℤ) ∧
      (s.order.length : ℤ) ≤ 4096 := by
  have hlength := List.length_pos_iff.2 h.clips.1
  have hclips := h.clips.2
  have hepochs := h.epochs
  have hstep := h.step.2
  have hproduct : s.epochs * (s.order.length : ℤ) ≤ 2000 * 4096 :=
    mul_le_mul hepochs.2 (by omega) (by omega) (by omega)
  exact ⟨hepochs.2, by omega, by omega, by omega⟩

/-- The text behind the header. -/
def bodyText (s : RunState) : Bytes :=
  (s.order.flatMap fun i => intText i ++ [32]) ++ ([10] ++ (s.random.text ++ [10]))

theorem text_eq (floats : FloatText) (s : RunState) :
    s.text floats =
      bytes "RESONANTIA_JOINT_RUN" ++ ([32] ++ (intText 1 ++ ([10] ++ (s.identity ++ ([32] ++
        (intText s.epochs ++ ([32] ++ (intText s.step ++ ([32] ++ (floats.write s.initialLr ++
          ([32] ++ (floats.write s.decay ++ ([32] ++ (intText s.order.length ++
            ([10] ++ s.bodyText))))))))))))))) := by
  have hmagic : bytes "RESONANTIA_JOINT_RUN 1\n" =
      bytes "RESONANTIA_JOINT_RUN" ++ ([32] ++ (intText 1 ++ [10])) := by decide
  rw [text, hmagic, bodyText]
  simp only [List.append_assoc]

section

variable {floats : FloatText} {s : RunState} (hregular : s.Regular)
  (hlr : floats.Lossless s.initialLr) (hdecay : floats.Lossless s.decay)
include hregular hlr hdecay

/-- The header is read back. -/
theorem readHeader_text :
    readHeader floats (s.text floats) =
      some ((s.identity, s.epochs, s.step, s.initialLr, s.decay, (s.order.length : ℤ)),
        [10] ++ s.bodyText) := by
  obtain ⟨hepochs, hstep, hone, hclips⟩ := hregular.header
  obtain ⟨hidentity, hchars⟩ := hregular.identity_chars
  have hepochs₀ := hregular.epochs.1
  have hstep₀ := hregular.step.1
  have hmagic := readsBack_token (t := bytes "RESONANTIA_JOINT_RUN") (by decide)
    (forall_mem_of_all (by decide)) []
  rw [text_eq, readHeader, ← List.nil_append (bytes "RESONANTIA_JOINT_RUN" ++ _),
    hmagic _ (by simp) (follow_blank _)]
  simp only [Option.bind_eq_bind, Option.bind_some]
  rw [readInt32, readsBack_int (by decide) (by decide) [32] _ space_blank (follow_feed _)]
  simp only [Option.bind_some, ne_eq, not_true_eq_false, or_self, if_false]
  rw [readsBack_token hidentity hchars [10] _ space_feed (follow_blank _)]
  simp only [Option.bind_some]
  rw [readInt32, readsBack_int (by omega) (by omega) [32] _ space_blank (follow_blank _)]
  simp only [Option.bind_some]
  rw [readInt32, readsBack_int (by omega) (by omega) [32] _ space_blank (follow_blank _)]
  simp only [Option.bind_some]
  rw [hlr.readsBack [32] _ space_blank (follow_blank _)]
  simp only [Option.bind_some]
  rw [hdecay.readsBack [32] _ space_blank (follow_blank _)]
  simp only [Option.bind_some]
  rw [readInt32, readsBack_int (by omega) (by omega) [32] _ space_blank (follow_feed _)]
  simp only [Option.bind_some]
  rw [if_neg (by omega)]
  rfl

/-- **Parsing undoes serializing.** -/
theorem parse_text (hvalid : s.validate = .ok ()) (hlength : (s.text floats).length ≤ 65536) :
    parse floats (s.text floats) = .ok s := by
  have hne : s.text floats ≠ [] := by
    rw [text_eq]
    exact List.append_ne_nil_of_left_ne_nil (by decide) _
  have hreads : ∀ i ∈ s.order, ReadsBack readInt32 (intText i) i := by
    intro i hi
    have hrange := hregular.mem_order hi
    exact readsBack_int (by omega) (by omega)
  have horder := ReadsBack.list hreads [10] ([10] ++ (s.random.text ++ [10])) space_feed
  rw [if_neg hregular.clips.1] at horder
  have hrandom := s.random.readsBack_text ([32] ++ [10]) [10]
    (List.forall_mem_append.2 ⟨space_blank, space_feed⟩) (follow_feed [])
  rw [List.append_assoc] at hrandom
  rw [parse, if_neg (by simp only [hne, false_or]; omega), readHeader_text hregular hlr hdecay]
  dsimp only
  rw [Int.toNat_natCast, bodyText, horder]
  dsimp only
  rw [hrandom]
  dsimp only
  rw [if_neg (by decide), hvalid]
  rfl

end

end RunState

end Resonantia.Training
