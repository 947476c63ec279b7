import Mathlib.Data.Int.Notation
import Resonantia.Library.Slice
import Resonantia.Pipeline.Checked

/-!
# Raw sample spools

A `RawSampleSpool` is a private temporary file of host-native samples that only grows: `append`
writes at the end and refuses non-finite samples and a file beyond `off_t`, `read` returns a range
of samples written before. The storage below it is taken to work, so that a spool is the list of the
samples appended so far; a spool carries the facts that `append` establishes, so that no later proof
has to show them again.

## Main definitions

* `Io.Sample`: a sample type with `std::isfinite`.
* `Io.RawSampleSpool`, `Io.RawFloatSpool`: the samples of a spool of elements of a given size.
* `Io.RawSampleSpool.append`, `Io.RawSampleSpool.read`.

## Main results

* `Io.RawSampleSpool.append_of_finite`: appending finite samples that fit succeeds.
* `Io.RawSampleSpool.read_of_le`: a read inside the spool returns the slice.
-/

namespace Resonantia.Io

open Slices Pipeline

/-- A sample type with the classification `std::isfinite`. -/
class Sample (α : Type*) where
  /-- `std::isfinite`. -/
  isFinite : α → Bool

/-- Integer samples, all of them finite, on which the pipeline can be evaluated. -/
instance : Sample ℤ where
  isFinite _ := true

/-- Rational samples, for exact arithmetic. -/
instance : Sample Rat where
  isFinite _ := true

/-- The largest `off_t`. -/
def offMax : ℕ := 2 ^ 63 - 1

/-- An open spool of samples of `size` bytes. -/
structure RawSampleSpool (size : ℕ) (α : Type*) [Sample α] where
  /-- The samples appended so far. -/
  samples : List α
  finite : ∀ x ∈ samples, Sample.isFinite x = true
  bounded : samples.length * size ≤ offMax

/-- A spool of `float` samples. -/
abbrev RawFloatSpool (α : Type*) [Sample α] := RawSampleSpool 4 α

namespace RawSampleSpool

variable {size : ℕ} {α : Type*} [Sample α]

@[ext] theorem ext {s t : RawSampleSpool size α} (h : s.samples = t.samples) : s = t := by
  cases s
  cases t
  cases h
  rfl

/-- `create`: an empty spool. -/
def create : RawSampleSpool size α where
  samples := []
  finite := by simp
  bounded := by simp [offMax]

@[simp] theorem samples_create : (create : RawSampleSpool size α).samples = [] := rfl

/-- `sample_count`. -/
def sampleCount (s : RawSampleSpool size α) : ℕ := s.samples.length

/-- `append`: every sample is checked before the storage grows. -/
def append (s : RawSampleSpool size α) (xs : List α) : Option (RawSampleSpool size α) :=
  if h : (∀ x ∈ xs, Sample.isFinite x = true) ∧ (s.samples.length + xs.length) * size ≤ offMax then
    some
      { samples := s.samples ++ xs
        finite := fun x hx => (List.mem_append.mp hx).elim (s.finite x) (h.1 x)
        bounded := by simpa using h.2 }
  else none

/-- `read`: the range must lie inside the spool. -/
def read (s : RawSampleSpool size α) (first count : ℕ) : Option (List α) :=
  match checkedAdd first count with
  | none => none
  | some endSample =>
    if endSample > s.sampleCount then none
    else match checkedMul first size, checkedMul count size with
      | some _, some _ => some (slice s.samples first endSample)
      | _, _ => none

/-- A spool with the longer list of samples exists exactly when the append succeeds. -/
theorem append_eq_some_iff {s t : RawSampleSpool size α} {xs : List α} :
    s.append xs = some t ↔ t.samples = s.samples ++ xs := by
  rw [append]
  constructor
  · intro h
    split at h
    · rw [← Option.some.inj h]
    · cases h
  · intro h
    have hfinite : ∀ x ∈ xs, Sample.isFinite x = true := by
      intro x hx
      exact t.finite x (h ▸ List.mem_append_right _ hx)
    have hbounded : (s.samples.length + xs.length) * size ≤ offMax := by
      have hle := t.bounded
      rwa [h, List.length_append] at hle
    rw [dif_pos ⟨hfinite, hbounded⟩]
    exact congrArg some (ext h.symm)

theorem append_of_finite (s : RawSampleSpool size α) (xs : List α)
    (hf : ∀ x ∈ xs, Sample.isFinite x = true)
    (hb : (s.samples.length + xs.length) * size ≤ offMax) :
    ∃ t, s.append xs = some t ∧ t.samples = s.samples ++ xs := by
  rw [append, dif_pos ⟨hf, hb⟩]
  exact ⟨_, rfl, rfl⟩

/-- An append succeeds exactly when the samples are finite and the file stays within `off_t`; the
outcome depends on the samples of the spool only. -/
theorem append_eq_none_iff {s : RawSampleSpool size α} {xs : List α} :
    s.append xs = none ↔
      ¬((∀ x ∈ xs, Sample.isFinite x = true) ∧
        (s.samples.length + xs.length) * size ≤ offMax) := by
  rw [append]
  split
  · rename_i h
    exact iff_of_false (Option.some_ne_none _) (not_not_intro h)
  · rename_i h
    exact iff_of_true rfl h

@[simp] theorem append_nil (s : RawSampleSpool size α) : s.append [] = some s :=
  append_eq_some_iff.mpr (List.append_nil _).symm

/-- Two appends are one append of both lists. -/
theorem append_append {s u : RawSampleSpool size α} {xs ys : List α} :
    s.append (xs ++ ys) = some u ↔ ∃ t, s.append xs = some t ∧ t.append ys = some u := by
  simp only [append_eq_some_iff]
  constructor
  · intro h
    have hbounded := u.bounded
    rw [h, ← List.append_assoc, List.length_append, Nat.add_mul] at hbounded
    obtain ⟨t, -, ht⟩ := append_of_finite s xs
      (fun x hx => u.finite x (h ▸ List.mem_append_right _ (List.mem_append_left _ hx)))
      (by
        rw [← List.length_append]
        omega)
    exact ⟨t, ht, by rw [h, ht, List.append_assoc]⟩
  · rintro ⟨t, ht, hu⟩
    rw [hu, ht, List.append_assoc]

theorem length_le (s : RawFloatSpool α) : s.samples.length ≤ 2 ^ 61 := by
  have h := s.bounded
  simp only [offMax] at h
  omega

/-- A read inside a spool of floats returns the slice. -/
theorem read_of_le {s : RawFloatSpool α} {first count : ℕ} (h : first + count ≤ s.samples.length) :
    s.read first count = some (slice s.samples first (first + count)) := by
  have hlen := s.length_le
  have hle : ¬ first + count > s.sampleCount := by
    simp only [sampleCount]
    omega
  rw [read, checkedAdd_of_lt (by omega), checkedMul_of_lt (by omega), checkedMul_of_lt (by omega)]
  exact if_neg hle

/-- What a successful read returns. -/
theorem eq_of_read {s : RawSampleSpool size α} {first count : ℕ} {xs : List α}
    (h : s.read first count = some xs) :
    first + count ≤ s.samples.length ∧ xs = slice s.samples first (first + count) := by
  rw [read] at h
  split at h
  · cases h
  · rename_i endSample hadd
    cases eq_add_of_checkedAdd hadd
    split at h
    · cases h
    · rename_i hle
      simp only [sampleCount] at hle
      split at h
      · exact ⟨by omega, (Option.some.inj h).symm⟩
      · cases h

end RawSampleSpool

end Resonantia.Io
