import Mathlib.Data.List.Nodup
import Resonantia.Library.FieldFraming
import Resonantia.Web.UploadNames

/-!
# Names of preprocessed files

The preprocessing program names its results after the stems of its inputs, and numbers the slices of
an input. All names but those of stereo results pass through a buffer of 512 bytes. An input that
cannot be read is skipped, in stereo mode it ends the run.

## Main definitions

* `AppSupport.collect`: the inputs in a directory.
* `AppSupport.outputs`: the paths of the results of one run.
* `AppSupport.StemsApart`: what keeps the paths apart.

## Main results

* `AppSupport.neverOverwrites_iff`: when no result replaces another one.
-/

namespace Resonantia.AppSupport

open ByteString FieldFraming Json

/-! ### The names -/

def kWav : Bytes := bytes ".wav"

/-- `fs::path::stem` of a single component. -/
def stem (name : Bytes) : Bytes := name.take (name.length - (Web.extension name).length)

/-- A file that is taken as an input. -/
def isInput (name : Bytes) : Bool := Web.Multipart.lower (Web.extension name) == kWav

/-- The inputs in a directory with these entries, sorted. -/
def collect (names : List Bytes) : List Bytes :=
  (names.filter isInput).mergeSort fun a b => decide (¬b < a)

/-- `snprintf` into `char name[512]`. -/
def intoBuffer (text : Bytes) : Bytes := text.take 511

/-- `operator/` of two paths, of which the second one is a single component. -/
def joinPath (directory name : Bytes) : Bytes :=
  if directory.getLast? = some (byte '/') then directory ++ name
  else directory ++ byte '/' :: name

/-- The text of an index, with at least four digits. -/
def paddedIndex (index : ℕ) : Bytes :=
  List.replicate (4 - (decimalText index).length) (byte '0') ++ decimalText index

/-- The path of one slice. -/
def sliceName (directory stem : Bytes) (index : ℕ) : Bytes :=
  intoBuffer (directory ++ byte '/' :: (stem ++ byte '_' :: (paddedIndex index ++ kWav)))

/-- The modes of a run. -/
inductive OutputMode
  | stereo
  | unsliced
  | sliced

/-- The paths that one run generates. An input that can be read has a number of slices, one that cannot
has none; a call that fails to write a result ends the run with a part of the paths. -/
def outputs (mode : OutputMode) (directory : Bytes) (names : List Bytes)
    (slices : Bytes → Option ℕ) : List Bytes :=
  match mode with
  | .stereo =>
    ((collect names).takeWhile fun name => (slices name).isSome).map fun name =>
      joinPath directory (stem name ++ kWav)
  | .unsliced =>
    ((collect names).filter fun name => (slices name).isSome).map fun name =>
      intoBuffer (directory ++ byte '/' :: (stem name ++ kWav))
  | .sliced =>
    (collect names).flatMap fun name =>
      (List.range ((slices name).getD 0)).map (sliceName directory (stem name))

/-- No result of a run replaces another one. -/
def NeverOverwrites (mode : OutputMode) (directory : Bytes) (names : List Bytes)
    (slices : Bytes → Option ℕ) : Prop :=
  (outputs mode directory names slices).Nodup

/-- The stem and the last index of every input that has slices. -/
def lastSlices (names : List Bytes) (slices : Bytes → Option ℕ) : List (Bytes × ℕ) :=
  names.filterMap fun name =>
    match slices name with
    | some (count + 1) => some (stem name, count)
    | _ => none

/-- The buffer has room for a stem and an index. -/
def Fits (directory : Bytes) (slice : Bytes × ℕ) : Prop :=
  directory.length + slice.1.length + (paddedIndex slice.2).length + 2 ≤ 511

instance (directory : Bytes) (slice : Bytes × ℕ) : Decidable (Fits directory slice) :=
  inferInstanceAs (Decidable (_ ≤ _))

/-- The name of a slice as far as the buffer has room behind the directory. -/
def cutName (directory stem : Bytes) (index : ℕ) : Bytes :=
  (stem ++ byte '_' :: (paddedIndex index ++ kWav)).take (510 - directory.length)

/-- A single slice whose index does not fit is not named like a slice of the other input. -/
def CutApart (directory : Bytes) (f g : Bytes × ℕ) : Prop :=
  ¬Fits directory f → ∀ index < g.2 + 1, cutName directory f.1 0 ≠ cutName directory g.1 index

instance (directory : Bytes) (f g : Bytes × ℕ) : Decidable (CutApart directory f g) :=
  inferInstanceAs (Decidable (¬_ → ∀ index < g.2 + 1, _))

/-- The stems of the inputs that have results are different and short enough: in sliced mode the buffer
has room for the indices of an input with several slices, and a single slice whose index is cut is
still named apart; in unsliced mode the stems differ in the room that they have. -/
def StemsApart (mode : OutputMode) (directory : Bytes) (names : List Bytes)
    (slices : Bytes → Option ℕ) : Prop :=
  match mode with
  | .stereo => (((collect names).takeWhile fun name => (slices name).isSome).map stem).Nodup
  | .unsliced =>
    (((names.filter isInput).filter fun name => (slices name).isSome).map fun name =>
      (stem name ++ kWav).take (510 - directory.length)).Nodup
  | .sliced =>
    (∀ f ∈ lastSlices (names.filter isInput) slices, 0 < f.2 → Fits directory f) ∧
      (lastSlices (names.filter isInput) slices).Pairwise fun f g =>
        f.1 ≠ g.1 ∧ CutApart directory f g ∧ CutApart directory g f

/-! ### Names determine stems and indices -/

theorem collect_perm (names : List Bytes) : (collect names).Perm (names.filter isInput) :=
  List.mergeSort_perm _ _

theorem joinPath_injective (directory : Bytes) : Function.Injective (joinPath directory) := by
  intro a b h
  rw [joinPath, joinPath] at h
  split_ifs at h
  · exact List.append_cancel_left h
  · exact (List.cons.inj (List.append_cancel_left h)).2

theorem decimal_replicate_append (n : ℕ) (text : Bytes) :
    decimal 0 (List.replicate n (byte '0') ++ text) = decimal 0 text := by
  induction n with
  | zero => rfl
  | succ n ih =>
    rw [List.replicate_succ, List.cons_append, decimal_cons]
    exact ih

theorem paddedIndex_injective : Function.Injective paddedIndex := by
  intro m n h
  have hvalue := congrArg (decimal 0) h
  rwa [paddedIndex, paddedIndex, decimal_replicate_append, decimal_replicate_append,
    decimal_decimalText, decimal_decimalText] at hvalue

theorem isDigit_paddedIndex {n : ℕ} {c : UInt8} (hc : c ∈ paddedIndex n) : isDigit c = true := by
  rcases List.mem_append.1 hc with hc | hc
  · rw [List.eq_of_mem_replicate hc]
    decide
  · exact isDigit_decimalText hc

theorem paddedIndex_ne_nil (n : ℕ) : paddedIndex n ≠ [] := by
  rw [paddedIndex, ne_eq, List.append_eq_nil_iff, not_and]
  exact fun _ => decimalText_ne_nil n

theorem length_decimalText_mono {m n : ℕ} (h : m ≤ n) :
    (decimalText m).length ≤ (decimalText n).length := by
  have hpos : 0 < (decimalText n).length := List.length_pos_iff.2 (decimalText_ne_nil n)
  refine length_decimalText_le hpos (h.trans_lt ?_)
  rw [decimalText, List.length_map] at hpos ⊢
  exact (Nat.length_toDigits_le_iff (by decide) hpos).1 le_rfl

theorem length_paddedIndex (n : ℕ) :
    (paddedIndex n).length = max 4 (decimalText n).length := by
  rw [paddedIndex, List.length_append, List.length_replicate]
  omega

theorem length_paddedIndex_mono {m n : ℕ} (h : m ≤ n) :
    (paddedIndex m).length ≤ (paddedIndex n).length := by
  rw [length_paddedIndex, length_paddedIndex]
  have hlength := length_decimalText_mono h
  omega

/-- The digits of a power of ten. -/
theorem decimalText_pow (k : ℕ) :
    decimalText (10 ^ k) = byte '1' :: List.replicate k (byte '0') := by
  induction k with
  | zero => rfl
  | succ k ih =>
    have hpos : 0 < 10 ^ k := Nat.pow_pos (by decide)
    have hlast : byte (Nat.digitChar 0) = byte '0' := rfl
    rw [decimalText_eq_if, if_neg (by rw [Nat.pow_succ]; omega), Nat.pow_succ,
      Nat.mul_div_cancel _ (by decide), ih, Nat.mul_mod_left, hlast, List.replicate_succ',
      List.cons_append]

/-- Where the buffer has no room for the last index, two indices are not told apart. -/
theorem exists_cut_index {n room : ℕ} (hn : 0 < n) (hroom : room < (paddedIndex n).length) :
    ∃ i j, i < j ∧ j ≤ n ∧
      (paddedIndex i ++ kWav).take room = (paddedIndex j ++ kWav).take room := by
  by_cases hfew : room < 4
  · refine ⟨0, 1, by decide, hn, ?_⟩
    have hthree : (paddedIndex 0 ++ kWav).take 3 = (paddedIndex 1 ++ kWav).take 3 := by decide
    have htake := congrArg (List.take room) hthree
    rwa [List.take_take, List.take_take, Nat.min_eq_left (by omega)] at htake
  · -- The last index has more digits than the room: a power of ten is cut to the one before.
    rw [length_paddedIndex] at hroom
    have hpow : ∀ k, 3 ≤ k → paddedIndex (10 ^ k) = byte '1' :: List.replicate k (byte '0') := by
      intro k hk
      rw [paddedIndex, decimalText_pow, List.length_cons, List.length_replicate,
        show 4 - (k + 1) = 0 by omega]
      rfl
    have hle : 10 ^ room ≤ n := by
      by_contra hlt
      have hdigits := length_decimalText_le (show 0 < room by omega) (Nat.not_le.1 hlt)
      omega
    obtain ⟨k, rfl⟩ : ∃ k, room = k + 1 := ⟨room - 1, by omega⟩
    refine ⟨10 ^ k, 10 ^ (k + 1), Nat.pow_lt_pow_right (by decide) (Nat.lt_succ_self k), hle, ?_⟩
    rw [hpow k (by omega), hpow (k + 1) (by omega), List.cons_append, List.cons_append,
      List.take_succ_cons, List.take_succ_cons, List.take_left' List.length_replicate,
      List.replicate_succ', List.append_assoc, List.take_left' List.length_replicate]

/-- A name that is cut after its digits still determines its stem and its index. -/
theorem stem_index_inj {a b v w : Bytes} {m n : ℕ} (hv : v <+: kWav) (hw : w <+: kWav)
    (h : a ++ byte '_' :: (paddedIndex m ++ v) = b ++ byte '_' :: (paddedIndex n ++ w)) :
    a = b ∧ m = n := by
  have hletters : ∀ u : Bytes, u <+: kWav → ∀ c ∈ u.reverse, (!isDigit c) = true := by
    intro u hu c hc
    have hmem : c ∈ kWav := hu.subset (List.mem_reverse.1 hc)
    exact List.forall_iff_forall_mem.1 (show kWav.Forall fun c => (!isDigit c) = true by decide) c hmem
  have hdigits : ∀ i, ∀ c ∈ (paddedIndex i).reverse, isDigit c = true := fun i c hc =>
    isDigit_paddedIndex (List.mem_reverse.1 hc)
  have hstop : ∀ (i : ℕ) (l : Bytes), Stops (fun c => !isDigit c) ((paddedIndex i).reverse ++ l) := by
    intro i l
    refine stops_append (by simpa using paddedIndex_ne_nil i) fun c hc => ?_
    rw [hdigits i c hc]
    rfl
  have hmark : ∀ l : Bytes, Stops isDigit (byte '_' :: l) := fun l => stops_cons (by decide)
  have hreverse : ∀ (x u : Bytes) (i : ℕ), (x ++ byte '_' :: (paddedIndex i ++ u)).reverse =
      u.reverse ++ ((paddedIndex i).reverse ++ byte '_' :: x.reverse) := by
    intro x u i
    simp
  have hback := congrArg List.reverse h
  rw [hreverse, hreverse] at hback
  have hdrop := congrArg (List.dropWhile fun c => !isDigit c) hback
  rw [dropWhile_append (hletters v hv) (hstop m _), dropWhile_append (hletters w hw) (hstop n _)]
    at hdrop
  have htake := congrArg (List.takeWhile isDigit) hdrop
  rw [takeWhile_append (hdigits m) (hmark _), takeWhile_append (hdigits n) (hmark _)] at htake
  have hrest := congrArg (List.dropWhile isDigit) hdrop
  rw [dropWhile_append (hdigits m) (hmark _), dropWhile_append (hdigits n) (hmark _)] at hrest
  exact ⟨List.reverse_injective (List.cons.inj hrest).2,
    paddedIndex_injective (List.reverse_injective htake)⟩

/-- With room for its digits, a name is cut in its extension at most. -/
theorem exists_cutName {directory stem : Bytes} {index : ℕ} (h : Fits directory (stem, index)) :
    ∃ w, w <+: kWav ∧
      cutName directory stem index = stem ++ byte '_' :: (paddedIndex index ++ w) := by
  have hroom : directory.length + stem.length + (paddedIndex index).length + 2 ≤ 511 := h
  refine ⟨kWav.take (510 - directory.length - (stem ++ byte '_' :: paddedIndex index).length),
    List.take_prefix _ _, ?_⟩
  have hassoc : ∀ w : Bytes, stem ++ byte '_' :: (paddedIndex index ++ w) =
      (stem ++ byte '_' :: paddedIndex index) ++ w := by
    intro w
    simp
  rw [cutName, hassoc, hassoc, List.take_append, List.take_of_length_le]
  simp only [List.length_append, List.length_cons]
  omega

theorem Fits.mono {directory stem : Bytes} {m n : ℕ} (h : Fits directory (stem, n)) (hle : m ≤ n) :
    Fits directory (stem, m) := by
  have hlength := length_paddedIndex_mono hle
  rw [Fits] at h ⊢
  dsimp only at h ⊢
  omega

/-- Two names of slices with room for their digits are different. -/
theorem cutName_inj {directory a b : Bytes} {m n : ℕ} (ha : Fits directory (a, m))
    (hb : Fits directory (b, n)) (h : cutName directory a m = cutName directory b n) :
    a = b ∧ m = n := by
  obtain ⟨v, hv, hname⟩ := exists_cutName ha
  obtain ⟨w, hw, hname'⟩ := exists_cutName hb
  rw [hname, hname'] at h
  exact stem_index_inj hv hw h

/-- The buffer cuts the name behind the directory. -/
theorem intoBuffer_append (directory text : Bytes) : intoBuffer (directory ++ byte '/' :: text) =
    intoBuffer (directory ++ [byte '/']) ++ text.take (510 - directory.length) := by
  rw [intoBuffer, intoBuffer, List.append_cons, List.take_append, List.length_append,
    List.length_singleton, show 511 - (directory.length + 1) = 510 - directory.length by omega]

theorem sliceName_eq (directory stem : Bytes) (index : ℕ) : sliceName directory stem index =
    intoBuffer (directory ++ [byte '/']) ++ cutName directory stem index :=
  intoBuffer_append _ _

theorem sliceName_inj_iff {directory a b : Bytes} {m n : ℕ} :
    sliceName directory a m = sliceName directory b n ↔
      cutName directory a m = cutName directory b n := by
  rw [sliceName_eq, sliceName_eq, List.append_cancel_left_eq]

/-! ### When no result is overwritten -/

theorem nodup_outputs_unsliced {directory : Bytes} {names : List Bytes}
    {slices : Bytes → Option ℕ} :
    (outputs .unsliced directory names slices).Nodup ↔
      StemsApart .unsliced directory names slices := by
  have hmap : (((collect names).filter fun name => (slices name).isSome).map fun name =>
      intoBuffer (directory ++ byte '/' :: (stem name ++ kWav))) =
      (((collect names).filter fun name => (slices name).isSome).map fun name =>
        (stem name ++ kWav).take (510 - directory.length)).map
          (intoBuffer (directory ++ [byte '/']) ++ ·) := by
    rw [List.map_map]
    exact List.map_congr_left fun name _ => intoBuffer_append _ _
  rw [outputs, StemsApart, hmap, List.nodup_map_iff fun a b h => List.append_cancel_left h]
  exact (((collect_perm names).filter _).map _).nodup_iff

theorem nodup_outputs_stereo {directory : Bytes} {names : List Bytes} {slices : Bytes → Option ℕ} :
    (outputs .stereo directory names slices).Nodup ↔ StemsApart .stereo directory names slices := by
  have hinj : Function.Injective fun stem => joinPath directory (stem ++ kWav) := fun a b h =>
    List.append_cancel_right (joinPath_injective directory h)
  have hmap : ((collect names).takeWhile fun name => (slices name).isSome).map (fun name =>
      joinPath directory (stem name ++ kWav)) =
        (((collect names).takeWhile fun name => (slices name).isSome).map stem).map fun stem =>
          joinPath directory (stem ++ kWav) := by
    rw [List.map_map]
    rfl
  rw [outputs, StemsApart, hmap, List.nodup_map_iff hinj]

theorem outputs_sliced (directory : Bytes) (names : List Bytes) (slices : Bytes → Option ℕ) :
    outputs .sliced directory names slices = (lastSlices (collect names) slices).flatMap fun f =>
      (List.range (f.2 + 1)).map (sliceName directory f.1) := by
  rw [outputs, lastSlices]
  induction collect names with
  | nil => rfl
  | cons name names ih =>
    rw [List.flatMap_cons, ih, List.filterMap_cons]
    rcases slices name with _ | _ | count
    · rfl
    · rfl
    · rw [List.flatMap_cons]
      rfl

/-- The slices of one input. -/
theorem nodup_map_sliceName {directory : Bytes} {f : Bytes × ℕ} :
    ((List.range (f.2 + 1)).map (sliceName directory f.1)).Nodup ↔
      (0 < f.2 → Fits directory f) := by
  rw [List.nodup_map_iff_inj_on List.nodup_range]
  constructor
  · intro hinj hseveral
    by_contra hroom
    rw [Fits] at hroom
    have hfour := length_paddedIndex f.2
    obtain ⟨i, j, hlt, hle, hcut⟩ := exists_cut_index hseveral
      (show 509 - directory.length - f.1.length < (paddedIndex f.2).length by omega)
    have hname : ∀ index, cutName directory f.1 index =
        (f.1 ++ [byte '_']).take (510 - directory.length) ++
          (paddedIndex index ++ kWav).take (509 - directory.length - f.1.length) := by
      intro index
      rw [cutName, List.append_cons, List.take_append, List.length_append, List.length_singleton,
        show 510 - directory.length - (f.1.length + 1) = 509 - directory.length - f.1.length by omega]
    have heq := hinj i (List.mem_range.2 (by omega)) j (List.mem_range.2 (by omega))
      (sliceName_inj_iff.2 (by rw [hname, hname, hcut]))
    omega
  · intro hfits m hm n hn heq
    rw [List.mem_range] at hm hn
    rcases Nat.eq_zero_or_pos f.2 with hzero | hpos
    · omega
    · have hroom : Fits directory (f.1, f.2) := hfits hpos
      exact (cutName_inj (hroom.mono (by omega)) (hroom.mono (by omega))
        (sliceName_inj_iff.1 heq)).2

/-- The slices of two inputs. -/
theorem disjoint_map_sliceName {directory : Bytes} {f g : Bytes × ℕ}
    (hf : 0 < f.2 → Fits directory f) (hg : 0 < g.2 → Fits directory g) :
    List.Disjoint ((List.range (f.2 + 1)).map (sliceName directory f.1))
        ((List.range (g.2 + 1)).map (sliceName directory g.1)) ↔
      f.1 ≠ g.1 ∧ CutApart directory f g ∧ CutApart directory g f := by
  have hdisjoint : List.Disjoint ((List.range (f.2 + 1)).map (sliceName directory f.1))
        ((List.range (g.2 + 1)).map (sliceName directory g.1)) ↔
      ∀ m < f.2 + 1, ∀ n < g.2 + 1, cutName directory f.1 m ≠ cutName directory g.1 n := by
    simp only [List.disjoint_left, List.mem_map, List.mem_range]
    constructor
    · intro h m hm n hn heq
      exact h ⟨m, hm, rfl⟩ ⟨n, hn, (sliceName_inj_iff.2 heq).symm⟩
    · rintro h _ ⟨m, hm, rfl⟩ ⟨n, hn, heq⟩
      exact h m hm n hn (sliceName_inj_iff.1 heq.symm)
  rw [hdisjoint]
  constructor
  · intro h
    refine ⟨fun heq => ?_, fun _ n hn => h 0 (Nat.succ_pos _) n hn,
      fun _ m hm => (h m hm 0 (Nat.succ_pos _)).symm⟩
    exact h 0 (Nat.succ_pos _) 0 (Nat.succ_pos _) (by rw [heq])
  · rintro ⟨hne, hcut, hcut'⟩ m hm n hn
    by_cases hroom : Fits directory f
    · by_cases hroom' : Fits directory g
      · have hm' : Fits directory (f.1, m) := Fits.mono hroom (Nat.lt_succ_iff.1 hm)
        have hn' : Fits directory (g.1, n) := Fits.mono hroom' (Nat.lt_succ_iff.1 hn)
        exact fun heq => hne (cutName_inj hm' hn' heq).1
      · obtain rfl : n = 0 := by
          have hzero := mt hg hroom'
          omega
        exact (hcut' hroom' m hm).symm
    · obtain rfl : m = 0 := by
        have hzero := mt hf hroom
        omega
      exact hcut hroom n hn

theorem nodup_outputs_sliced {directory : Bytes} {names : List Bytes} {slices : Bytes → Option ℕ} :
    (outputs .sliced directory names slices).Nodup ↔ StemsApart .sliced directory names slices := by
  have hperm : (lastSlices (collect names) slices).Perm
      (lastSlices (names.filter isInput) slices) := (collect_perm names).filterMap _
  have hsymm : ∀ f g : Bytes × ℕ, (f.1 ≠ g.1 ∧ CutApart directory f g ∧ CutApart directory g f) →
      g.1 ≠ f.1 ∧ CutApart directory g f ∧ CutApart directory f g :=
    fun f g h => ⟨h.1.symm, h.2.2, h.2.1⟩
  rw [outputs_sliced, StemsApart, List.nodup_flatMap, ← hperm.pairwise_iff (hsymm _ _)]
  simp only [nodup_map_sliceName, hperm.mem_iff]
  refine and_congr_right fun hfits => ?_
  constructor <;> intro h <;> refine h.imp_of_mem fun {f g} hf hg hfg => ?_
  · exact (disjoint_map_sliceName (hfits f (hperm.subset hf)) (hfits g (hperm.subset hg))).1 hfg
  · exact (disjoint_map_sliceName (hfits f (hperm.subset hf)) (hfits g (hperm.subset hg))).2 hfg

/-- **When no result replaces another one.** For every mode, directory and set of entries, whichever
inputs can be read and whatever the numbers of their slices, the paths of a run are pairwise different
if and only if the stems of the inputs with results are different and short enough. -/
theorem neverOverwrites_iff (mode : OutputMode) (directory : Bytes) (names : List Bytes)
    (slices : Bytes → Option ℕ) :
    NeverOverwrites mode directory names slices ↔ StemsApart mode directory names slices := by
  cases mode with
  | stereo => exact nodup_outputs_stereo
  | unsliced => exact nodup_outputs_unsliced
  | sliced => exact nodup_outputs_sliced

/-- Two inputs whose extensions differ in case only have the same result. -/
theorem not_neverOverwrites_cases :
    ¬NeverOverwrites .sliced (bytes "out") [bytes "a.wav", bytes "a.WAV"] fun _ => some 1 := by
  intro h
  have hstems := (nodup_outputs_sliced.1 h).2
  revert hstems
  decide

/-- One slice of a long stem in a long directory is named apart from those of another input. -/
example : NeverOverwrites .sliced (List.replicate 300 (byte 'd'))
    [List.replicate 206 (byte 's') ++ kWav, bytes "a.wav"] fun name => some (name.length % 10) := by
  refine nodup_outputs_sliced.2 ?_
  rw [StemsApart]
  decide +kernel

end Resonantia.AppSupport
