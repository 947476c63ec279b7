import Mathlib.Tactic.Ring
import Resonantia.Io.SpoolStorage

/-!
# Raw sample spools on their storage

A spool on its storage is the list of the samples that were appended. Transfers in parts add up to
the whole; a storage that fails leaves a spool that refuses everything until it is created anew.

## Main definitions

* `Io.SpoolStorage.Holds`: a spool whose file has the samples of a list.
* `Io.SpoolStorage.Broken`: a spool whose storage failed.
* `Io.SpoolStorage.appended`: the samples that a history of calls has appended.

## Main results

* `Io.SpoolStorage.append_spec`, `Io.SpoolStorage.read_spec`: the operations on a list.
* `Io.SpoolStorage.refines_of_run`: every sequence of calls refines the list.
-/

namespace Resonantia.Io.SpoolStorage

open ByteString Effect Slices StoredSample
open WavWriter (writeAt writeAt_length)
open Pipeline (checkedAdd checkedMul checkedAdd_of_lt checkedMul_of_lt)

/-- Nobody else changes the file, and every call moves something. -/
structure Environment.Steady (e : Environment) : Prop where
  fstat : ∀ i, e.fstat i = some id
  transfer : ∀ i, ∃ count, e.transfer i = .moved (count + 1)
  allocates : ∀ i, e.allocates i = true

/-! ### Transfers -/

section Transfer

variable {w₀ : World} {β γ : Type} {E : Unit → World → Prop}

def World.next (w : World) : World := { w with ticks := w.ticks + 1 }

theorem triple_ask_bind {P : World → Prop} {Q : γ → World → Prop} {answer : Environment → ℕ → β}
    {f : β → SpoolM γ}
    (h : ∀ w, P w → Triple (fun w' => w' = w.next) (f (answer w.environment w.ticks)) Q E) :
    Triple P (ask answer >>= f) Q E := fun w hw => h w hw w.next rfl

/-- The same file and spool; the attributes may be others when somebody changes them. -/
structure Same (w₀ w : World) : Prop where
  file : w.file = w₀.file
  state : w.state = w₀.state
  environment : w.environment = w₀.environment
  attributes : w₀.environment.Steady → w.attributes = w₀.attributes

theorem Same.refl (w : World) : Same w w := ⟨rfl, rfl, rfl, fun _ => rfl⟩

theorem Same.next {w : World} (h : Same w₀ w) : Same w₀ w.next :=
  ⟨h.file, h.state, h.environment, h.attributes⟩

theorem captureIdentity_spec :
    Triple (Same w₀) captureIdentity
      (fun seen w => ((∀ identity, seen = some identity → identity.size = w₀.file.length) ∧
          (w₀.environment.Steady →
            seen = some { w₀.attributes with size := w₀.file.length })) ∧ Same w₀ w) E := by
  refine triple_ask_bind fun w hw => ?_
  cases hfstat : w.environment.fstat w.ticks with
  | none =>
    refine triple_pure ?_
    rintro _ rfl
    refine ⟨⟨fun _ h => (nomatch h), fun hsteady => ?_⟩, hw.next⟩
    rw [hw.environment, hsteady.fstat] at hfstat
    cases hfstat
  | some change =>
    rintro _ rfl
    refine ⟨⟨?_, fun hsteady => ?_⟩, hw.file, hw.state, hw.environment, fun hsteady => ?_⟩
    · rintro _ hseen
      rw [← Option.some.inj hseen]
      exact congrArg List.length hw.file
    · rw [hw.environment, hsteady.fstat] at hfstat
      obtain rfl := Option.some.inj hfstat
      change some { w.attributes with size := w.file.length } = _
      rw [hw.attributes hsteady, hw.file]
    · rw [hw.environment, hsteady.fstat] at hfstat
      obtain rfl := Option.some.inj hfstat
      exact hw.attributes hsteady

/-- What a write leaves alone. -/
structure Kept (w₀ w : World) : Prop where
  state : w.state = w₀.state
  environment : w.environment = w₀.environment
  object : w₀.environment.Steady → sameObject w₀.attributes w.attributes = true

theorem sameObject_refl (identity : FileIdentity) : sameObject identity identity = true := by
  simp [sameObject]

theorem Same.kept {w : World} (h : Same w₀ w) : Kept w₀ w := by
  refine ⟨h.state, h.environment, fun hsteady => ?_⟩
  rw [h.attributes hsteady]
  exact sameObject_refl _

theorem Kept.written {w : World} (h : Kept w₀ w) (data : Bytes) (offset : ℕ) :
    Kept w₀ (w.written data offset) := by
  refine ⟨h.state, h.environment, fun hsteady => ?_⟩
  exact h.object hsteady

/-- The turns of a write at the end of the file add up. -/
theorem pwriteLoop_spec {turns : ℕ} {content input : Bytes} (hturns : input.length ≤ turns) :
    Triple (fun w => w.file = content ∧ Kept w₀ w) (pwriteLoop turns input content.length)
      (fun done w => ((done = true → w.file = content ++ input) ∧
        (w₀.environment.Steady → done = true)) ∧ Kept w₀ w) E := by
  induction turns generalizing content input with
  | zero =>
    obtain rfl := List.length_eq_zero_iff.1 (Nat.le_zero.1 hturns)
    refine triple_pure fun w hw => ⟨⟨fun _ => ?_, fun _ => rfl⟩, hw.2⟩
    rw [List.append_nil]
    exact hw.1
  | succ turns ih =>
    rw [pwriteLoop]
    by_cases hnil : input = []
    · rw [if_pos hnil]
      refine triple_pure fun w hw => ⟨⟨fun _ => ?_, fun _ => rfl⟩, hw.2⟩
      rw [hnil, List.append_nil]
      exact hw.1
    rw [if_neg hnil]
    have hpos := List.length_pos_iff.2 hnil
    refine triple_ask_bind fun w hw => ?_
    obtain ⟨hfile, hkept⟩ := hw
    have hnext : Kept w₀ w.next := ⟨hkept.state, hkept.environment, hkept.object⟩
    cases htransfer : w.environment.transfer w.ticks with
    | failed part =>
      rintro _ rfl
      refine ⟨⟨fun h => (nomatch h), fun hsteady => ?_⟩, hnext.written _ _⟩
      obtain ⟨count, hmoved⟩ := hsteady.transfer w.ticks
      rw [hkept.environment, hmoved] at htransfer
      cases htransfer
    | moved count =>
      dsimp only
      have hle : min count (min input.length kIoChunkBytes) ≤ input.length := by omega
      have hsteady : w₀.environment.Steady → min count (min input.length kIoChunkBytes) ≠ 0 := by
        intro hsteady
        obtain ⟨count', hmoved⟩ := hsteady.transfer w.ticks
        rw [hkept.environment, hmoved] at htransfer
        have hcount := Transfer.moved.inj htransfer
        have hchunk : 0 < kIoChunkBytes := by decide
        omega
      generalize min count (min input.length kIoChunkBytes) = consumed at hle hsteady ⊢
      by_cases hzero : consumed = 0
      · rw [if_pos hzero]
        refine triple_pure ?_
        rintro _ rfl
        exact ⟨⟨fun h => (nomatch h), fun h => absurd hzero (hsteady h)⟩, hnext⟩
      rw [if_neg hzero]
      have hlength : content.length + consumed = (content ++ input.take consumed).length := by
        rw [List.length_append, List.length_take, Nat.min_eq_left hle]
      rw [hlength]
      have hrest := @ih (content ++ input.take consumed) (input.drop consumed) (by
        rw [List.length_drop]
        omega)
      rw [List.append_assoc, List.take_append_drop] at hrest
      intro w' hw'
      obtain rfl : w' = w.next := hw'
      rw [exec_modify_bind]
      refine hrest _ ⟨?_, hnext.written _ _⟩
      change writeAt w.file (input.take consumed) content.length = _
      rw [hfile, writeAt_length]

theorem checkedFileRange_ne_false {offset size : ℕ} (h : offset + size ≤ offMax) :
    checkedFileRange offset size ≠ false := by
  have hlt : offset + size < 2 ^ 64 := by
    rw [offMax] at h
    omega
  have hoffset : offset ≤ offMax := by omega
  rw [checkedFileRange, checkedAdd_of_lt hlt]
  simp [h, hoffset]

theorem pwriteExact_spec {content input : Bytes} (hle : content.length + input.length ≤ offMax) :
    Triple (fun w => w.file = content ∧ Kept w₀ w) (pwriteExact input content.length)
      (fun done w => ((done = true → w.file = content ++ input) ∧
        (w₀.environment.Steady → done = true)) ∧ Kept w₀ w) E := by
  rw [pwriteExact]
  by_cases hnil : input = []
  · rw [if_pos hnil]
    refine triple_pure fun w hw => ⟨⟨fun _ => ?_, fun _ => rfl⟩, hw.2⟩
    rw [hnil, List.append_nil]
    exact hw.1
  rw [if_neg hnil, if_neg (checkedFileRange_ne_false hle)]
  exact pwriteLoop_spec le_rfl

/-- The turns of a read add up to the range. -/
theorem preadLoop_spec {turns remaining start offset : ℕ} (hturns : remaining ≤ turns)
    (hstart : start ≤ offset) :
    Triple (Same w₀) (preadLoop turns remaining offset (slice w₀.file start offset))
      (fun output w => ((∀ data, output = some data →
          data = slice w₀.file start (offset + remaining)) ∧
        (w₀.environment.Steady → offset + remaining ≤ w₀.file.length → output.isSome = true)) ∧
        Same w₀ w) E := by
  induction turns generalizing remaining offset with
  | zero =>
    obtain rfl := Nat.le_zero.1 hturns
    refine triple_pure fun w hw => ⟨⟨fun data h => ?_, fun _ _ => rfl⟩, hw⟩
    exact (Option.some.inj h).symm
  | succ turns ih =>
    rw [preadLoop]
    by_cases hzero : remaining = 0
    · rw [if_pos hzero]
      refine triple_pure fun w hw => ⟨⟨fun data h => ?_, fun _ _ => rfl⟩, hw⟩
      rw [hzero]
      exact (Option.some.inj h).symm
    rw [if_neg hzero]
    refine triple_ask_bind fun w hw => ?_
    cases htransfer : w.environment.transfer w.ticks with
    | failed part =>
      refine triple_pure ?_
      rintro _ rfl
      refine ⟨⟨fun _ h => (nomatch h), fun hsteady => ?_⟩, hw.next⟩
      obtain ⟨count, hmoved⟩ := hsteady.transfer w.ticks
      rw [hw.environment, hmoved] at htransfer
      cases htransfer
    | moved count =>
      refine triple_get_bind ?_
      rintro _ rfl
      have hfile : w.next.file = w₀.file := hw.file
      rw [hfile]
      dsimp only
      have hle : min count (min (min remaining kIoChunkBytes) (w₀.file.length - offset)) ≤
        remaining := by omega
      have hsteady : w₀.environment.Steady → offset + remaining ≤ w₀.file.length →
          min count (min (min remaining kIoChunkBytes) (w₀.file.length - offset)) ≠ 0 := by
        intro hsteady hlength
        obtain ⟨count', hmoved⟩ := hsteady.transfer w.ticks
        rw [hw.environment, hmoved] at htransfer
        have hcount := Transfer.moved.inj htransfer
        have hchunk : 0 < kIoChunkBytes := by decide
        omega
      generalize min count (min (min remaining kIoChunkBytes) (w₀.file.length - offset)) = consumed
        at hle hsteady ⊢
      by_cases hnone : consumed = 0
      · rw [if_pos hnone]
        refine triple_pure ?_
        rintro _ rfl
        exact ⟨⟨fun _ h => (nomatch h), fun h h' => absurd hnone (hsteady h h')⟩, hw.next⟩
      rw [if_neg hnone, slice_append_slice _ hstart (Nat.le_add_right _ _)]
      have hrest := @ih (remaining - consumed) (offset + consumed) (by omega) (by omega)
      have hend : offset + consumed + (remaining - consumed) = offset + remaining := by omega
      rw [hend] at hrest
      refine triple_pre hrest ?_
      rintro _ rfl
      exact hw.next

theorem preadExact_spec {size offset : ℕ} (hle : offset + size ≤ offMax) :
    Triple (Same w₀) (preadExact size offset)
      (fun output w => ((∀ data, output = some data →
          data = slice w₀.file offset (offset + size)) ∧
        (w₀.environment.Steady → offset + size ≤ w₀.file.length → output.isSome = true)) ∧
        Same w₀ w) E := by
  rw [preadExact]
  by_cases hzero : size = 0
  · rw [if_pos hzero]
    refine triple_pure fun w hw => ⟨⟨fun data h => ?_, fun _ _ => rfl⟩, hw⟩
    rw [hzero, Nat.add_zero, slice_self]
    exact (Option.some.inj h).symm
  rw [if_neg hzero, if_neg (checkedFileRange_ne_false hle)]
  have hloop := @preadLoop_spec w₀ E size size offset offset le_rfl le_rfl
  rwa [slice_self] at hloop

end Transfer

/-! ### The bytes of samples -/

section Bytes

variable {α : Type} [StoredSample α]

theorem length_flatMap_encode (xs : List α) :
    (xs.flatMap encode).length = xs.length * elementSize α := by
  induction xs with
  | nil => simp
  | cons x xs ih =>
    rw [List.flatMap_cons, List.length_append, length_encode, ih, List.length_cons]
    ring

theorem drop_flatMap_encode (xs : List α) (k : ℕ) :
    (xs.flatMap encode).drop (k * elementSize α) = (xs.drop k).flatMap encode := by
  induction k generalizing xs with
  | zero => simp
  | succ k ih =>
    cases xs with
    | nil => simp
    | cons x xs =>
      have hlength : (k + 1) * elementSize α = (encode x).length + k * elementSize α := by
        rw [length_encode]
        ring
      rw [List.flatMap_cons, hlength, List.drop_length_add_append, ih, List.drop_succ_cons]

theorem take_flatMap_encode (xs : List α) (k : ℕ) :
    (xs.flatMap encode).take (k * elementSize α) = (xs.take k).flatMap encode := by
  induction k generalizing xs with
  | zero => simp
  | succ k ih =>
    cases xs with
    | nil => simp
    | cons x xs =>
      have hlength : (k + 1) * elementSize α = (encode x).length + k * elementSize α := by
        rw [length_encode]
        ring
      rw [List.flatMap_cons, hlength, List.take_length_add_append, ih, List.take_succ_cons,
        List.flatMap_cons]

/-- A range of the file is the range of its samples. -/
theorem slice_flatMap_encode (xs : List α) (first count : ℕ) :
    slice (xs.flatMap encode) (first * elementSize α)
        (first * elementSize α + count * elementSize α) =
      (slice xs first (first + count)).flatMap encode := by
  rw [slice, slice, Nat.add_sub_cancel_left, Nat.add_sub_cancel_left, drop_flatMap_encode,
    take_flatMap_encode]

theorem decodeAll_flatMap_encode (xs : List α) :
    decodeAll xs.length (xs.flatMap encode) = xs := by
  induction xs with
  | nil => rfl
  | cons x xs ih =>
    have hlength : (encode x).length = elementSize α := length_encode x
    rw [List.length_cons, decodeAll, List.flatMap_cons, List.take_left' hlength,
      List.drop_left' hlength, decode_encode, ih]

end Bytes

/-! ### Operations on a list -/

/-- A spool whose storage failed. -/
def Broken (w : World) : Prop := ∃ st, w.state = some st ∧ st.failed = true

section Operations

variable {α : Type} [StoredSample α] {s : RawSampleSpool (elementSize α) α} {st : State}
  {w₀ : World}

/-- A spool whose file has the samples of a list. -/
structure Holds (s : RawSampleSpool (elementSize α) α) (st : State) (w : World) : Prop where
  state : w.state = some st
  failed : st.failed = false
  sampleCount : st.sampleCount = s.samples.length
  file : w.file = s.samples.flatMap encode
  identity : w.environment.Steady →
    st.identity = { w.attributes with size := w.file.length }

theorem Holds.length (h : Holds s st w₀) :
    w₀.file.length = st.sampleCount * elementSize α := by
  rw [h.file, length_flatMap_encode, h.sampleCount]

theorem Holds.length_le (h : Holds s st w₀) : st.sampleCount * elementSize α ≤ offMax := by
  rw [h.sampleCount]
  exact s.bounded

theorem sameIdentity_refl (identity : FileIdentity) : sameIdentity identity identity = true := by
  simp [sameIdentity, sameObject_refl]

theorem triple_fail {β : Type} {P : World → Prop} {Q : β → World → Prop} {E : Unit → World → Prop}
    (hstate : ∀ w, P w → w.state = some st) (hbroken : ∀ w, Broken w → E () w) :
    Triple P fail Q E := by
  intro w hw
  have hmap : w.state.map (fun state => { state with failed := true }) =
      some { st with failed := true } := by
    rw [hstate w hw, Option.map_some]
  exact hbroken _ ⟨_, hmap, rfl⟩

/-- The sizes of an append that the file has room for. -/
theorem grown_of_le {size n count : ℕ} (hsize : 0 < size) (h : (n + count) * size ≤ offMax) :
    grown size n count = some (n + count, (n + count) * size) := by
  have hsum : n + count ≤ (n + count) * size := Nat.le_mul_of_pos_right _ hsize
  have hcount : count * size ≤ (n + count) * size :=
    Nat.mul_le_mul_right size (Nat.le_add_left count n)
  rw [offMax] at h
  rw [grown, checkedAdd_of_lt (by omega), checkedMul_of_lt (by omega)]
  dsimp only
  rw [if_neg (by omega), checkedMul_of_lt (by omega)]
  exact if_neg (by rw [offMax]; omega)

theorem eq_of_grown {size n count newCount newBytes : ℕ}
    (h : grown size n count = some (newCount, newBytes)) :
    newCount = n + count ∧ newBytes = (n + count) * size ∧ (n + count) * size ≤ offMax := by
  rw [grown] at h
  split at h
  · rename_i total appendBytes hadd _
    obtain rfl := Pipeline.eq_add_of_checkedAdd hadd
    split_ifs at h
    split at h
    · cases h
    · rename_i bytes hmul
      obtain rfl := Pipeline.eq_mul_of_checkedMul hmul
      split_ifs at h with hle
      obtain ⟨rfl, rfl⟩ := Prod.mk.inj (Option.some.inj h)
      exact ⟨rfl, rfl, Nat.not_lt.1 hle⟩
  · cases h

/-- The identity of a spool that nobody touched is the one last seen. -/
theorem Holds.expectedBytes (h : Holds s st w₀) {seen : Option FileIdentity}
    (hseen : ∀ identity, seen = some identity → identity.size = w₀.file.length)
    (hsteady : w₀.environment.Steady →
      seen = some { w₀.attributes with size := w₀.file.length }) :
    (seen.bind (expectedBytes (elementSize α) st) = none ∧ ¬w₀.environment.Steady) ∨
      seen.bind (expectedBytes (elementSize α) st) = some w₀.file.length := by
  have hmul : checkedMul st.sampleCount (elementSize α) = some w₀.file.length := by
    have hle := h.length_le
    rw [offMax] at hle
    rw [checkedMul_of_lt (by omega), h.length]
  cases seen with
  | none => exact Or.inl ⟨rfl, fun h' => nomatch hsteady h'⟩
  | some before =>
    rw [Option.bind_some, SpoolStorage.expectedBytes]
    by_cases hidentity : sameIdentity st.identity before = false
    · rw [if_pos hidentity]
      refine Or.inl ⟨rfl, fun h' => ?_⟩
      rw [h.identity h', ← Option.some.inj (hsteady h'), sameIdentity_refl] at hidentity
      cases hidentity
    · rw [if_neg hidentity, hmul]
      exact Or.inr (if_neg fun hne => hne (hseen before rfl).symm)

/-- What an append leaves that returns `false`. -/
def AppendRefused (s : RawSampleSpool (elementSize α) α) (xs : List α) (w₀ w : World) : Prop :=
  ((¬∀ x ∈ xs, Sample.isFinite x = true) ∧ w = w₀) ∨
    Broken w ∧ (w₀.environment.Steady → offMax < (s.samples.length + xs.length) * elementSize α)

/-- **Appending.** -/
theorem append_spec (h : Holds s st w₀) (xs : List α) :
    Triple (fun w => w = w₀) (append xs)
      (fun _ w => ∃ t st', s.append xs = some t ∧ Holds t st' w)
      (fun _ w => AppendRefused s xs w₀ w) := by
  rw [append]
  by_cases hfinite : xs.all Sample.isFinite = false
  · rw [if_pos hfinite]
    refine triple_throw fun w hw => Or.inl ⟨fun hall => ?_, hw⟩
    rw [List.all_eq_true.2 hall] at hfinite
    cases hfinite
  rw [if_neg hfinite]
  rw [Bool.not_eq_false, List.all_eq_true] at hfinite
  refine triple_get_bind fun w hw => ?_
  rw [hw, h.state]
  dsimp only
  rw [h.failed, if_neg Bool.false_ne_true]
  by_cases hcount : xs.length = 0
  · rw [if_pos hcount]
    obtain rfl := List.length_eq_zero_iff.1 hcount
    refine triple_pure fun w hw => ?_
    rw [hw]
    exact ⟨s, st, RawSampleSpool.append_nil s, h⟩
  rw [if_neg hcount]
  have hfail : ∀ {P : World → Prop}, (∀ w, P w → w.state = some st) →
      (w₀.environment.Steady → offMax < (s.samples.length + xs.length) * elementSize α) →
      Triple P (fail : SpoolM Unit) (fun _ w => ∃ t st', s.append xs = some t ∧ Holds t st' w)
        (fun _ w => AppendRefused s xs w₀ w) := fun hstate hsteady =>
    triple_fail hstate fun w hw => Or.inr ⟨hw, hsteady⟩
  refine triple_bind (triple_pre (@captureIdentity_spec w₀ _) fun w hw => hw ▸ Same.refl _)
    fun seen => triple_of_fact fun hseen => ?_
  have hsame : ∀ w, Same w₀ w → w.state = some st := fun w hw => hw.state.trans h.state
  rcases h.expectedBytes hseen.1 hseen.2 with ⟨hnone, hsteady⟩ | hsome
  · rw [hnone]
    exact hfail hsame fun h' => absurd h' hsteady
  rw [hsome]
  dsimp only
  cases hgrown : grown (elementSize α) st.sampleCount xs.length with
  | none =>
    refine hfail hsame fun _ => Nat.lt_of_not_le fun hle => ?_
    rw [h.sampleCount, grown_of_le elementSize_pos hle] at hgrown
    cases hgrown
  | some sizes =>
    obtain ⟨newCount, newBytes⟩ := sizes
    obtain ⟨rfl, rfl, hle⟩ := eq_of_grown hgrown
    have hlength : w₀.file.length + (xs.flatMap encode).length =
        (st.sampleCount + xs.length) * elementSize α := by
      rw [h.length, length_flatMap_encode]
      ring
    have hstate : ∀ w, Kept w₀ w → w.state = some st := fun w hw => hw.state.trans h.state
    refine triple_bind (triple_pre (pwriteExact_spec (hlength.trans_le hle))
      fun w hw => ⟨hw.file, hw.kept⟩) fun done w₁ hw₁ => ?_
    obtain ⟨⟨hfile, hsteady⟩, hkept⟩ := hw₁
    cases done with
    | false => exact hfail (P := Kept w₀) hstate (fun h' => nomatch hsteady h') w₁ hkept
    | true =>
      have hfile₁ : w₁.file = (s.samples ++ xs).flatMap encode := by
        rw [hfile rfl, h.file, List.flatMap_append]
      have hstate₁ : ∀ w, Same w₁ w → w.state = some st :=
        fun w hw => hw.state.trans (hstate w₁ hkept)
      have hlength₁ : w₁.file.length = (st.sampleCount + xs.length) * elementSize α := by
        rw [hfile rfl, List.length_append, hlength]
      refine (triple_bind (@captureIdentity_spec w₁ _) fun seen =>
        triple_of_fact fun hseen' => ?_) w₁ (Same.refl w₁)
      cases seen with
      | none =>
        refine hfail hstate₁ fun h' => ?_
        rw [← hkept.environment] at h'
        cases hseen'.2 h'
      | some after =>
        dsimp only
        by_cases hobject : sameObject st.identity after = false ∨
            after.size ≠ (st.sampleCount + xs.length) * elementSize α
        · rw [if_pos hobject]
          refine hfail hstate₁ fun h' => ?_
          have hsame' : sameObject st.identity after = true := by
            have hafter := hseen'.2 (hkept.environment ▸ h')
            rw [Option.some.inj hafter, h.identity h']
            exact hkept.object h'
          rcases hobject with hfalse | hsize
          · rw [hsame'] at hfalse
            cases hfalse
          · exact absurd ((hseen'.1 after rfl).trans hlength₁) hsize
        · rw [if_neg hobject]
          obtain ⟨t, ht, hsamples⟩ := RawSampleSpool.append_of_finite s xs hfinite
            (h.sampleCount ▸ hle)
          intro w hw
          rw [exec_modify]
          refine ⟨t, ⟨after, st.sampleCount + xs.length, false⟩, ht, rfl, rfl, ?_, ?_, ?_⟩
          · rw [hsamples, List.length_append, h.sampleCount]
          · rw [hsamples]
            exact hw.file.trans hfile₁
          · intro h'
            have hsteady₁ : w₁.environment.Steady := hw.environment ▸ h'
            have hafter := hseen'.2 hsteady₁
            dsimp only
            rw [Option.some.inj hafter, hw.attributes hsteady₁, hw.file]

/-- What a successful read returns, for samples of any size. -/
theorem read_eq_some_iff {first count : ℕ} {ys : List α} :
    s.read first count = some ys ↔
      first + count ≤ s.samples.length ∧ ys = slice s.samples first (first + count) := by
  refine ⟨RawSampleSpool.eq_of_read, ?_⟩
  rintro ⟨hle, rfl⟩
  have hsize : 0 < elementSize α := elementSize_pos
  have hbounded := s.bounded
  have hfirst : first * elementSize α ≤ s.samples.length * elementSize α :=
    Nat.mul_le_mul_right _ (by omega)
  have hcount : count * elementSize α ≤ s.samples.length * elementSize α :=
    Nat.mul_le_mul_right _ (by omega)
  have hlength : s.samples.length ≤ s.samples.length * elementSize α :=
    Nat.le_mul_of_pos_right _ hsize
  rw [offMax] at hbounded
  rw [RawSampleSpool.read, checkedAdd_of_lt (by omega), checkedMul_of_lt (by omega),
    checkedMul_of_lt (by omega)]
  exact if_neg (Nat.not_lt.2 hle)

theorem read_eq_none_iff {first count : ℕ} :
    s.read first count = none ↔ s.samples.length < first + count := by
  rw [← not_iff_not, Nat.not_lt, ← ne_eq, Option.ne_none_iff_exists']
  exact ⟨fun ⟨ys, hys⟩ => (read_eq_some_iff.1 hys).1,
    fun hle => ⟨_, read_eq_some_iff.2 ⟨hle, rfl⟩⟩⟩

theorem Holds.inRange_eq_false_iff (h : Holds s st w₀) {first count : ℕ} :
    inRange st first count = false ↔ s.samples.length < first + count := by
  rw [inRange]
  cases hadd : checkedAdd first count with
  | none =>
    refine iff_of_true rfl (Nat.lt_of_not_le fun hle => ?_)
    have hbounded := h.length_le
    have hlength : st.sampleCount ≤ st.sampleCount * elementSize α :=
      Nat.le_mul_of_pos_right _ elementSize_pos
    rw [offMax] at hbounded
    rw [← h.sampleCount] at hle
    rw [checkedAdd_of_lt (by omega)] at hadd
    cases hadd
  | some endSample =>
    rw [Pipeline.eq_add_of_checkedAdd hadd, h.sampleCount]
    simp

theorem Holds.unchanged_spec (h : Holds s st w₀) {E : Unit → World → Prop} :
    Triple (Same w₀) (unchanged st)
      (fun same w => (w₀.environment.Steady → same = true) ∧ Same w₀ w) E := by
  refine triple_bind captureIdentity_spec fun seen => triple_of_fact fun hseen => ?_
  cases seen with
  | none => exact triple_pure fun w hw => ⟨fun h' => (nomatch hseen.2 h'), hw⟩
  | some identity =>
    refine triple_pure fun w hw => ⟨fun h' => ?_, hw⟩
    rw [h.identity h', ← Option.some.inj (hseen.2 h'), sameIdentity_refl]

theorem byteRange_of_le {first count : ℕ} (h : first + count ≤ s.samples.length) :
    byteRange (elementSize α) first count =
      some (first * elementSize α, count * elementSize α) ∧
      first * elementSize α + count * elementSize α ≤ s.samples.length * elementSize α := by
  have hsum : first * elementSize α + count * elementSize α ≤
      s.samples.length * elementSize α := by
    rw [← Nat.add_mul]
    exact Nat.mul_le_mul_right _ h
  have hbounded := s.bounded
  rw [offMax] at hbounded
  refine ⟨?_, hsum⟩
  rw [byteRange, checkedMul_of_lt (by omega), checkedMul_of_lt (by omega)]
  exact if_neg (by omega)

/-- What a read leaves that returns `false`. -/
def ReadRefused (s : RawSampleSpool (elementSize α) α) (first count : ℕ) (w₀ w : World) : Prop :=
  (Same w₀ w ∧ (s.read first count = none ∨ w₀.environment.allocates w₀.ticks = false)) ∨
    Broken w ∧ s.read first count ≠ none ∧ ¬w₀.environment.Steady

/-- The bytes of a range in memory are its samples. -/
theorem readStorage_spec (h : Holds s st w₀) (first count : ℕ) :
    Triple (Same w₀) (readStorage (elementSize α) first count)
      (fun data w => (first + count ≤ s.samples.length ∧
        data = (slice s.samples first (first + count)).flatMap encode) ∧ Same w₀ w)
      (fun _ w => ReadRefused s first count w₀ w) := by
  refine triple_get_bind fun w hw => ?_
  rw [hw.state, h.state]
  dsimp only
  rw [h.failed, if_neg Bool.false_ne_true]
  have hstart : ∀ w', w' = w → Same w₀ w' := fun w' hw' => hw' ▸ hw
  by_cases hrange : inRange st first count = false
  · rw [if_pos hrange]
    refine triple_throw fun w' hw' => Or.inl ⟨hstart w' hw', Or.inl ?_⟩
    exact read_eq_none_iff.2 (h.inRange_eq_false_iff.1 hrange)
  rw [if_neg hrange]
  rw [h.inRange_eq_false_iff, Nat.not_lt] at hrange
  have hsome : s.read first count ≠ none := by
    rw [ne_eq, read_eq_none_iff, Nat.not_lt]
    exact hrange
  have hfail : ¬w₀.environment.Steady → ∀ {Q : Bytes → World → Prop},
      Triple (Same w₀) (fail : SpoolM Bytes) Q (fun _ w => ReadRefused s first count w₀ w) :=
    fun hsteady => triple_fail (fun w hw => hw.state.trans h.state)
      fun w hw => Or.inr ⟨hw, hsome, hsteady⟩
  refine triple_bind (triple_pre h.unchanged_spec hstart) fun same => triple_of_fact fun hsame => ?_
  cases same with
  | false => exact hfail fun h' => nomatch hsame h'
  | true =>
    obtain ⟨hbytes, hsum⟩ := byteRange_of_le hrange
    rw [if_pos rfl, hbytes]
    dsimp only
    refine triple_bind (preadExact_spec (hsum.trans s.bounded)) fun output =>
      triple_of_fact fun houtput => ?_
    cases output with
    | none =>
      refine hfail fun h' => nomatch houtput.2 h' ?_
      rw [h.file, length_flatMap_encode]
      exact hsum
    | some data =>
      have hdata := houtput.1 data rfl
      rw [h.file, slice_flatMap_encode] at hdata
      refine triple_bind h.unchanged_spec fun same => triple_of_fact fun hsame' => ?_
      cases same with
      | false => exact hfail fun h' => nomatch hsame' h'
      | true => exact triple_pure fun w hw => ⟨⟨hrange, hdata⟩, hw⟩

theorem Holds.same (h : Holds s st w₀) {w : World} (hw : Same w₀ w) : Holds s st w := by
  refine ⟨hw.state.trans h.state, h.failed, h.sampleCount, hw.file.trans h.file, fun h' => ?_⟩
  rw [hw.environment] at h'
  rw [h.identity h', hw.attributes h', hw.file]

theorem read_of_maxSize_lt {first count : ℕ} (h : maxSize α < count) :
    s.read first count = none := by
  rw [read_eq_none_iff]
  have hbounded := s.bounded
  rw [maxSize, Nat.div_lt_iff_lt_mul elementSize_pos] at h
  have hlt : s.samples.length * elementSize α < count * elementSize α := hbounded.trans_lt h
  have hcount := Nat.lt_of_mul_lt_mul_right hlt
  omega

/-- **Reading.** -/
theorem read_spec (h : Holds s st w₀) (first count : ℕ) :
    Triple (fun w => w = w₀) (read first count)
      (fun ys w => s.read first count = some ys ∧ Same w₀ w)
      (fun _ w => ReadRefused s first count w₀ w) := by
  rw [read]
  by_cases hmax : maxSize α < count
  · rw [if_pos hmax]
    exact triple_throw fun w hw => Or.inl ⟨hw ▸ Same.refl _, Or.inl (read_of_maxSize_lt hmax)⟩
  rw [if_neg hmax]
  refine triple_ask_bind fun w hw => ?_
  rw [hw]
  have hnext : ∀ w', w' = w₀.next → Same w₀ w' := fun w' hw' => hw' ▸ (Same.refl w₀).next
  by_cases hallocates : w₀.environment.allocates w₀.ticks = true
  · rw [if_pos hallocates]
    refine triple_bind (triple_pre (readStorage_spec h first count) hnext) fun data =>
      triple_of_fact fun hdata => ?_
    obtain ⟨hrange, rfl⟩ := hdata
    have hlength : (slice s.samples first (first + count)).length = count := by
      rw [length_slice hrange]
      omega
    have hdecode : decodeAll count ((slice s.samples first (first + count)).flatMap encode) =
        slice s.samples first (first + count) := by
      have hall := decodeAll_flatMap_encode (slice s.samples first (first + count))
      rwa [hlength] at hall
    have hfinite : (slice s.samples first (first + count)).all Sample.isFinite = true :=
      List.all_eq_true.2 fun x hx => s.finite x (mem_of_mem_slice hx)
    dsimp only
    rw [hdecode, hfinite, if_neg (fun h => nomatch h)]
    exact triple_pure fun w hw => ⟨read_eq_some_iff.2 ⟨hrange, rfl⟩, hw⟩
  · rw [if_neg hallocates]
    refine triple_throw fun w' hw' => Or.inl ⟨hnext w' hw', Or.inr ?_⟩
    rwa [Bool.not_eq_true] at hallocates

end Operations

/-! ### One call -/

section Step

variable {α : Type} [StoredSample α] {w₀ w : World}

/-- A spool that is not open, or whose storage failed. -/
def Unusable (w : World) : Prop := ∀ st, w.state = some st → st.failed = true

theorem Broken.unusable (h : Broken w) : Unusable w := by
  obtain ⟨st, hst, hfailed⟩ := h
  intro st' hst'
  rw [hst] at hst'
  exact Option.some.inj hst' ▸ hfailed

theorem append_of_unusable (h : Unusable w₀) (xs : List α) :
    exec (append xs) w₀ = (.error (), w₀) := by
  rw [append]
  split_ifs
  · rfl
  · rw [appendStorage, exec_get_bind]
    cases hstate : w₀.state with
    | none => rfl
    | some st =>
      dsimp only
      rw [if_pos (h st hstate)]
      rfl

theorem read_of_unusable (h : Unusable w₀) (first count : ℕ) :
    Triple (fun w => w = w₀) (read first count : SpoolM (List α)) (fun _ _ => False)
      (fun _ w => Same w₀ w) := by
  rw [read]
  split_ifs
  · exact triple_throw fun w hw => hw ▸ Same.refl _
  refine triple_ask_bind fun w hw => ?_
  have hnext : ∀ w', w' = w.next → Same w₀ w' := fun w' hw' => by
    rw [hw', hw]
    exact (Same.refl w₀).next
  split_ifs
  · refine triple_bind (Q := fun _ _ => False) (triple_get_bind fun w' hw' => ?_)
      fun _ _ h => h.elim
    rw [(hnext w' hw').state]
    cases hstate : w₀.state with
    | none => exact triple_throw fun w'' hw'' => hw'' ▸ hnext w' hw'
    | some st =>
      dsimp only
      rw [if_pos (h st hstate)]
      exact triple_throw fun w'' hw'' => hw'' ▸ hnext w' hw'
  · exact triple_throw hnext

theorem createFile_spec {E : Unit → World → Prop} (attempts : ℕ) :
    Triple (fun w => w.state = none) (createFile attempts)
      (fun created w => (created = true → w.file = []) ∧ w.state = none) E := by
  induction attempts with
  | zero => exact triple_pure fun w hw => ⟨fun h => (nomatch h), hw⟩
  | succ attempts ih =>
    rw [createFile]
    refine triple_ask_bind fun w hw => ?_
    have hnext : ∀ w', w' = w.next → w'.state = none := fun w' hw' => hw' ▸ hw
    cases w.environment.openat w.ticks with
    | created =>
      intro w' hw'
      exact ⟨fun _ => rfl, hnext w' hw'⟩
    | taken => exact triple_pre ih hnext
    | failed => exact triple_pure fun w' hw' => ⟨fun h => (nomatch h), hnext w' hw'⟩

/-- **Creation.** -/
theorem createStorage_spec (directory : Bytes) :
    Triple (fun _ => True) (createStorage (elementSize α) directory)
      (fun _ w => ∃ st, Holds (RawSampleSpool.create : RawSampleSpool (elementSize α) α) st w)
      (fun _ w => w.state = none) := by
  have hclose : Triple (fun _ => True) close (fun _ w => w.state = none)
      (fun _ w => w.state = none) := fun w _ => by rw [close, exec_modify]
  refine triple_bind hclose fun _ => ?_
  split_ifs
  · exact triple_throw fun w hw => hw
  · exact triple_throw fun w hw => hw
  refine triple_ask_bind fun w hw => ?_
  have hnext : ∀ w', w' = w.next → w'.state = none := fun w' hw' => hw' ▸ hw
  split_ifs
  · refine triple_bind (triple_pre (createFile_spec _) hnext) fun created w₁ hw₁ => ?_
    obtain ⟨hfile, hstate⟩ := hw₁
    cases created with
    | false => exact hstate
    | true =>
      refine (triple_bind (@captureIdentity_spec w₁ _) fun seen =>
        triple_of_fact fun hseen => ?_) w₁ (Same.refl w₁)
      cases seen with
      | none => exact triple_throw fun w hw => hw.state.trans hstate
      | some identity =>
        dsimp only
        split_ifs with hsize
        · exact triple_throw fun w hw => hw.state.trans hstate
        intro w hw
        rw [exec_modify]
        refine ⟨⟨identity, 0, false⟩, rfl, rfl, rfl, hw.file.trans (hfile rfl), fun h' => ?_⟩
        have hsteady : w₁.environment.Steady := hw.environment ▸ h'
        dsimp only
        rw [Option.some.inj (hseen.2 hsteady), hw.attributes hsteady, hw.file]
  · exact triple_throw hnext

/-! ### Sequences of calls -/

/-- The samples that were appended since the last creation. -/
def appended : List (Call α × Reply α) → List α
  | [] => []
  | (.create _, _) :: _ => []
  | (.close, _) :: _ => []
  | (.append samples, .done) :: history => appended history ++ samples
  | _ :: history => appended history

/-- What a sequence of calls keeps. -/
def Valid (history : List (Call α × Reply α)) (w : World) : Prop :=
  Unusable w ∨ ∃ (s : RawSampleSpool (elementSize α) α) (st : State),
    s.samples = appended history ∧ Holds s st w

/-- Calls that do not create a spool. -/
def Call.creates : Call α → Prop
  | .create _ => True
  | _ => False

theorem Unusable.step (h : Unusable w) {call : Call α} (hcall : ¬call.creates) :
    (call = .close ∨ (perform call w).1 = .refused) ∧ Unusable (perform call w).2 := by
  cases call with
  | create directory => exact absurd trivial hcall
  | append samples =>
    rw [perform, append_of_unusable h]
    exact ⟨Or.inr rfl, h⟩
  | read first count =>
    rw [perform]
    rcases hexec : exec (read first count : SpoolM (List α)) w with ⟨r, w'⟩
    rcases triple_elim (read_of_unusable h first count) rfl hexec with
      ⟨_, -, hfalse⟩ | ⟨_, rfl, hsame⟩
    · exact hfalse.elim
    · refine ⟨Or.inr rfl, fun st hst => h st ?_⟩
      rw [← hsame.state]
      exact hst
  | close => exact ⟨Or.inl rfl, fun st hst => nomatch hst⟩

theorem Unusable.run (h : Unusable w₀) {history : List (Call α × Reply α)}
    (hrun : Run α w₀ history w) (hcalls : ∀ entry ∈ history, ¬entry.1.creates) :
    Unusable w ∧ ∀ entry ∈ history, entry.1 = .close ∨ entry.2 = .refused := by
  induction hrun with
  | nil => exact ⟨h, fun _ hmem => nomatch hmem⟩
  | cons _ call ih =>
    obtain ⟨hcall, hrest⟩ := List.forall_mem_cons.1 hcalls
    obtain ⟨hunusable, hreplies⟩ := ih hrest
    obtain ⟨hreply, hunusable'⟩ := hunusable.step hcall
    exact ⟨hunusable', List.forall_mem_cons.2 ⟨hreply, hreplies⟩⟩

end Step

section Run

variable {α : Type} [StoredSample α] {start w : World} {history : List (Call α × Reply α)}

/-- An append on a list, by its reply. -/
theorem perform_append {s : RawSampleSpool (elementSize α) α} {st : State} (h : Holds s st w)
    (xs : List α) :
    ((perform (.append xs) w).1 = .done ∧ ∃ t st', s.append xs = some t ∧
        Holds t st' (perform (.append xs) w).2) ∨
      ((perform (.append xs) w).1 = .refused ∧
        AppendRefused s xs w (perform (.append xs) w).2) := by
  rw [perform]
  rcases hexec : exec (append xs) w with ⟨r, w'⟩
  rcases triple_elim (append_spec h xs) rfl hexec with ⟨_, rfl, hdone⟩ | ⟨_, rfl, hrefused⟩
  · exact Or.inl ⟨rfl, hdone⟩
  · exact Or.inr ⟨rfl, hrefused⟩

/-- A read on a list, by its reply. -/
theorem perform_read {s : RawSampleSpool (elementSize α) α} {st : State} (h : Holds s st w)
    (first count : ℕ) :
    (∃ ys, (perform (.read first count) w : Reply α × World).1 = .samples ys ∧
        s.read first count = some ys ∧ Same w (perform (.read first count : Call α) w).2) ∨
      ((perform (.read first count) w : Reply α × World).1 = .refused ∧
        ReadRefused s first count w (perform (.read first count : Call α) w).2) := by
  rw [perform]
  rcases hexec : exec (read first count : SpoolM (List α)) w with ⟨r, w'⟩
  rcases triple_elim (read_spec h first count) rfl hexec with ⟨ys, rfl, hys⟩ | ⟨_, rfl, hrefused⟩
  · exact Or.inl ⟨ys, rfl, hys⟩
  · exact Or.inr ⟨rfl, hrefused⟩

/-- **One call.** -/
theorem Valid.step (h : Valid history w) (call : Call α) :
    Valid ((call, (perform call w).1) :: history) (perform call w).2 := by
  cases call with
  | create directory =>
    rw [perform]
    rcases hexec : exec (createStorage (elementSize α) directory) w with ⟨r, w'⟩
    rcases triple_elim (createStorage_spec (α := α) directory) trivial hexec with
      ⟨_, rfl, st, hst⟩ | ⟨_, rfl, hnone⟩
    · exact Or.inr ⟨RawSampleSpool.create, st, rfl, hst⟩
    · refine Or.inl fun st hst => ?_
      change w'.state = some st at hst
      rw [hnone] at hst
      cases hst
  | close => exact Or.inl fun st hst => nomatch hst
  | append xs =>
    rcases h with hunusable | ⟨s, st, hs, hholds⟩
    · exact Or.inl (hunusable.step id).2
    rcases perform_append hholds xs with ⟨hreply, t, st', ht, hholds'⟩ | ⟨hreply, hrefused⟩
    · rw [hreply]
      refine Or.inr ⟨t, st', ?_, hholds'⟩
      rw [RawSampleSpool.append_eq_some_iff.1 ht, hs, appended]
    · rw [hreply]
      rcases hrefused with ⟨-, hsame⟩ | ⟨hbroken, -⟩
      · rw [hsame]
        exact Or.inr ⟨s, st, hs, hholds⟩
      · exact Or.inl hbroken.unusable
  | read first count =>
    rcases h with hunusable | ⟨s, st, hs, hholds⟩
    · exact Or.inl (hunusable.step id).2
    rcases perform_read hholds first count with ⟨ys, -, -, hsame⟩ | ⟨-, ⟨hsame, -⟩ | ⟨hbroken, -⟩⟩
    · exact Or.inr ⟨s, st, hs, hholds.same hsame⟩
    · exact Or.inr ⟨s, st, hs, hholds.same hsame⟩
    · exact Or.inl hbroken.unusable

theorem Valid.run (h : Valid ([] : List (Call α × Reply α)) start)
    (hrun : Run α start history w) : Valid history w := by
  induction hrun with
  | nil => exact h
  | cons _ call ih => exact ih.step call

/-- A spool after a history of calls behaves as the list of the samples appended so far. -/
structure Refines (history : List (Call α × Reply α)) (w : World) : Prop where
  /-- A usable spool counts the samples of the list. -/
  count : ¬Unusable w → ∃ st, w.state = some st ∧ st.sampleCount = (appended history).length
  /-- Samples that are not finite, or too many, are refused; the former change nothing. -/
  append_refused : ∀ xs : List α, ¬((∀ x ∈ xs, Sample.isFinite x = true) ∧
    ((appended history).length + xs.length) * elementSize α ≤ offMax) →
      (perform (.append xs) w).1 = .refused ∧
        ((¬∀ x ∈ xs, Sample.isFinite x = true) → (perform (.append xs) w).2 = w)
  /-- A read that returns has the range of the list. -/
  read_samples : ∀ first count ys, (perform (.read first count) w).1 = .samples ys →
    first + count ≤ (appended history).length ∧
      ys = slice (appended history) first (first + count)
  /-- A read out of range is refused and changes nothing. -/
  read_outside : ∀ first count, (appended history).length < first + count →
    (perform (.read first count) w : Reply α × World).1 = .refused ∧
      (perform (.read first count : Call α) w).2.file = w.file ∧
      (perform (.read first count : Call α) w).2.state = w.state
  /-- Any other append or read that is refused changes nothing, for want of memory, or is the last:
  everything is refused from then on, until a spool is created. -/
  refused : ∀ call : Call α, ¬call.creates → (perform call w).1 = .refused →
    ((perform call w).2.file = w.file ∧ (perform call w).2.state = w.state) ∨
      ∀ history' w', Run α (perform call w).2 history' w' →
        (∀ entry ∈ history', ¬entry.1.creates) →
          ∀ entry ∈ history', entry.1 = .close ∨ entry.2 = .refused
  /-- Where nothing fails, a usable spool refuses nothing else. -/
  steady : w.environment.Steady → ¬Unusable w →
    (∀ xs : List α, (∀ x ∈ xs, Sample.isFinite x = true) →
      ((appended history).length + xs.length) * elementSize α ≤ offMax →
        (perform (.append xs) w).1 = .done) ∧
    ∀ first count, first + count ≤ (appended history).length →
      (perform (.read first count) w).1 = .samples (slice (appended history) first (first + count))

theorem Unusable.refines (h : Unusable w) : Refines history w where
  count := fun hnot => absurd h hnot
  append_refused := by
    intro xs _
    rw [perform, append_of_unusable h]
    exact ⟨rfl, fun _ => rfl⟩
  read_samples := by
    intro first count ys hys
    have hcall : ¬(Call.read first count : Call α).creates := id
    rcases (h.step hcall).1 with hclose | hreply
    · cases hclose
    · rw [hreply] at hys
      cases hys
  read_outside := by
    intro first count _
    rw [perform]
    rcases hexec : exec (read first count : SpoolM (List α)) w with ⟨r, w'⟩
    rcases triple_elim (read_of_unusable h first count) rfl hexec with
      ⟨_, -, hfalse⟩ | ⟨_, rfl, hsame⟩
    · exact hfalse.elim
    · exact ⟨rfl, hsame.file, hsame.state⟩
  refused := fun call hcall _ =>
    Or.inr fun history' w' hrun hcalls => ((h.step hcall).2.run hrun hcalls).2
  steady := fun _ hnot => absurd h hnot

theorem Holds.refines {s : RawSampleSpool (elementSize α) α} {st : State} (h : Holds s st w)
    (hs : s.samples = appended history) : Refines history w where
  count := fun _ => ⟨st, h.state, by rw [h.sampleCount, hs]⟩
  append_refused := by
    intro xs hxs
    rcases perform_append h xs with ⟨-, t, st', ht, -⟩ | ⟨hreply, hrefused⟩
    · rw [← hs, ← RawSampleSpool.append_eq_none_iff, ht] at hxs
      cases hxs
    · refine ⟨hreply, fun hinfinite => ?_⟩
      rw [perform, append, if_pos]
      · rfl
      · rwa [← Bool.not_eq_true, List.all_eq_true]
  read_samples := by
    intro first count ys hys
    rcases perform_read h first count with ⟨zs, hreply, hread, -⟩ | ⟨hreply, -⟩
    · rw [hreply] at hys
      obtain rfl := Reply.samples.inj hys
      rw [← hs]
      exact read_eq_some_iff.1 hread
    · rw [hreply] at hys
      cases hys
  read_outside := by
    intro first count hlt
    have hnone : s.read first count = none := read_eq_none_iff.2 (hs ▸ hlt)
    rcases perform_read h first count with ⟨zs, -, hread, -⟩ | ⟨hreply, ⟨hsame, -⟩ | ⟨-, hsome, -⟩⟩
    · rw [hnone] at hread
      cases hread
    · exact ⟨hreply, hsame.file, hsame.state⟩
    · exact absurd hnone hsome
  refused := by
    have hlast : ∀ {w' : World}, Broken w' → ∀ (history' : List (Call α × Reply α)) w'',
        Run α w' history' w'' → (∀ entry ∈ history', ¬entry.1.creates) →
          ∀ entry ∈ history', entry.1 = .close ∨ entry.2 = .refused :=
      fun hbroken history' w'' hrun hcalls => (hbroken.unusable.run hrun hcalls).2
    intro call hcall hreply
    cases call with
    | create directory => exact absurd trivial hcall
    | close => cases hreply
    | append xs =>
      rcases perform_append h xs with ⟨hdone, -⟩ | ⟨-, ⟨-, hsame⟩ | ⟨hbroken, -⟩⟩
      · rw [hdone] at hreply
        cases hreply
      · rw [hsame]
        exact Or.inl ⟨rfl, rfl⟩
      · exact Or.inr (hlast hbroken)
    | read first count =>
      rcases perform_read h first count with
        ⟨ys, hdone, -⟩ | ⟨-, ⟨hsame, -⟩ | ⟨hbroken, -⟩⟩
      · rw [hdone] at hreply
        cases hreply
      · exact Or.inl ⟨hsame.file, hsame.state⟩
      · exact Or.inr (hlast hbroken)
  steady := by
    intro hsteady _
    refine ⟨fun xs hfinite hle => ?_, fun first count hle => ?_⟩
    · rw [← hs] at hle
      rcases perform_append h xs with ⟨hreply, -⟩ | ⟨-, ⟨hinfinite, -⟩ | ⟨-, hlimit⟩⟩
      · exact hreply
      · exact absurd hfinite hinfinite
      · exact absurd hle (Nat.not_le.2 (hlimit hsteady))
    · rw [← hs] at hle ⊢
      have hread := read_eq_some_iff.2 ⟨hle, rfl⟩
      rcases perform_read h first count with
        ⟨ys, hreply, hys, -⟩ | ⟨-, ⟨-, hnone | hmemory⟩ | ⟨-, -, hunsteady⟩⟩
      · rw [hread] at hys
        rw [hreply, Option.some.inj hys]
      · rw [hread] at hnone
        cases hnone
      · rw [hsteady.allocates] at hmemory
        cases hmemory
      · exact absurd hsteady hunsteady

/-- The calls in this order, with the history they leave. -/
def performAll (start : World) (calls : List (Call α)) : List (Call α × Reply α) × World :=
  calls.foldl (fun done call =>
    ((call, (perform call done.2).1) :: done.1, (perform call done.2).2)) ([], start)

theorem run_performAll (start : World) (calls : List (Call α)) :
    Run α start (performAll start calls).1 (performAll start calls).2 := by
  have hfold : ∀ done : List (Call α × Reply α) × World, Run α start done.1 done.2 →
      Run α start (calls.foldl (fun done call =>
          ((call, (perform call done.2).1) :: done.1, (perform call done.2).2)) done).1
        (calls.foldl (fun done call =>
          ((call, (perform call done.2).1) :: done.1, (perform call done.2).2)) done).2 := by
    induction calls with
    | nil => exact fun _ h => h
    | cons call calls ih => exact fun done h => ih _ (h.cons call)
  exact hfold _ .nil

end Run

/-- Transfers of one to three bytes, until the storage fails in the last one. -/
def partEnvironment : Environment where
  opensDirectory _ := true
  openat i := if i = 1 then .taken else .created
  fstat _ := some id
  transfer i := if i < 20 then .moved (1 + i % 3) else .failed 1
  clock i := (i, 0)
  allocates _ := true

def partWorld : World where
  file := []
  attributes := ⟨1, 2, 0, 33152, 1, (0, 0), (0, 0)⟩
  state := none
  environment := partEnvironment
  ticks := 0

/-- Two samples are appended in parts, an infinite one is refused, and the last append fails. -/
def partCalls : List (Call UInt32) :=
  [.create [], .append [0x3f800000, 0xc0200000], .append [0x7f800000], .read 1 1, .read 1 2,
    .append [0x3f800000], .append [], .read 0 1]

end Resonantia.Io.SpoolStorage
