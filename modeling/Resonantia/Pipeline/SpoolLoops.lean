import Resonantia.Library.BlockLoop
import Resonantia.Pipeline.Synthesis

/-!
# Filling and copying spools

The bounded pipeline fills a spool with one value and copies a spool block by block. Both end as one
append would.

## Main definitions

* `Pipeline.appendSpool`, `Pipeline.readSpool`: a step of a spool that fails with a message.
* `Pipeline.appendRepeated`, `Pipeline.copySpool`: the loops.

## Main results

* `Pipeline.appendRepeated_eq_ok`: a filled spool is one append.
* `Pipeline.exists_copySpool`: a copy succeeds and holds the samples of the source.
-/

namespace Resonantia.Pipeline

open Slices Io BlockLoop

variable {α : Type} [Sample α] {size : ℕ}

/-- An append that fails with a message. -/
def appendSpool (spool : RawSampleSpool size α) (xs : List α) (message : String) :
    Except String (RawSampleSpool size α) :=
  orFail (spool.append xs) message

/-- A read that fails with a message. -/
def readSpool (spool : RawSampleSpool size α) (first count : ℕ) (message : String) :
    Except String (List α) :=
  orFail (spool.read first count) message

/-- `append_repeated`. -/
def appendRepeated (spool : RawSampleSpool size α) (value : α) (count : ℕ) :
    Except String (RawSampleSpool size α) :=
  if _h : count > 0 then do
    let take := min count kIoBlockSamples
    let spool ← appendSpool spool (List.replicate take value) "bounded spool append failed"
    appendRepeated spool value (count - take)
  else .ok spool
termination_by count
decreasing_by
  simp only [kIoBlockSamples]
  omega

/-- `copy_spool`. -/
def copySpool (source destination : RawSampleSpool size α) :
    Except String (RawSampleSpool size α) := do
  let destination ← overBlocks kIoBlockSamples source.sampleCount
    (fun offset count destination => do
      let block ← readSpool source offset count "bounded spool copy failed"
      appendSpool destination block "bounded spool copy failed") 0 destination
  require (destination.sampleCount = source.sampleCount) "bounded spool copy length mismatch"
  return destination

theorem appendSpool_eq_ok {spool t : RawSampleSpool size α} {xs : List α} {message : String} :
    appendSpool spool xs message = .ok t ↔ spool.append xs = some t :=
  orFail_eq_ok

/-- A read inside a spool returns the slice. -/
theorem readSpool_of_le {spool : RawSampleSpool size α} {first count : ℕ} (message : String)
    (hsize : 0 < size) (h : first + count ≤ spool.samples.length) :
    readSpool spool first count message = .ok (slice spool.samples first (first + count)) := by
  have hbounded := spool.bounded
  have hlength : spool.samples.length ≤ spool.samples.length * size :=
    Nat.le_mul_of_pos_right _ hsize
  have hfirst : first * size ≤ spool.samples.length * size := Nat.mul_le_mul_right _ (by omega)
  have hcount : count * size ≤ spool.samples.length * size := Nat.mul_le_mul_right _ (by omega)
  rw [offMax] at hbounded
  have hread : spool.read first count = some (slice spool.samples first (first + count)) := by
    rw [RawSampleSpool.read, checkedAdd_of_lt (by omega), checkedMul_of_lt (by omega),
      checkedMul_of_lt (by omega)]
    exact if_neg (not_lt.2 h)
  rw [readSpool, hread]
  rfl

/-- A spool that is filled block by block is one append. -/
theorem appendRepeated_eq_ok {spool t : RawSampleSpool size α} {value : α} {count : ℕ} :
    appendRepeated spool value count = .ok t ↔
      spool.append (List.replicate count value) = some t := by
  induction count using Nat.strongRecOn generalizing spool with
  | ind count ih =>
    rw [appendRepeated]
    by_cases h : count > 0
    · have htake : 0 < min count kIoBlockSamples := lt_min h (by decide)
      have hsplit : count = min count kIoBlockSamples + (count - min count kIoBlockSamples) := by
        omega
      rw [dif_pos h]
      conv_rhs => rw [hsplit, ← List.replicate_append_replicate, RawSampleSpool.append_append]
      simp only [bind_eq_ok, appendSpool_eq_ok, ih _ (Nat.sub_lt h htake)]
    · obtain rfl : count = 0 := by omega
      rw [dif_neg h, List.replicate_zero, RawSampleSpool.append_nil, Except.ok.injEq,
        Option.some.injEq]

/-- Two appends with one message are one append. -/
theorem appendSpool_append (spool : RawSampleSpool size α) (xs ys : List α) (message : String) :
    appendSpool spool (xs ++ ys) message =
      appendSpool spool xs message >>= fun spool => appendSpool spool ys message := by
  cases hboth : spool.append (xs ++ ys) with
  | some u =>
    obtain ⟨t, ht, hu⟩ := RawSampleSpool.append_append.1 hboth
    rw [appendSpool_eq_ok.2 hboth, appendSpool_eq_ok.2 ht]
    exact (appendSpool_eq_ok.2 hu).symm
  | none =>
    cases hx : spool.append xs with
    | none =>
      rw [appendSpool, hboth, appendSpool, hx]
      rfl
    | some t =>
      cases hy : t.append ys with
      | none =>
        rw [appendSpool, hboth, appendSpool_eq_ok.2 hx]
        change _ = appendSpool t ys message
        rw [appendSpool, hy]
      | some u =>
        rw [RawSampleSpool.append_append.2 ⟨t, hx, hy⟩] at hboth
        cases hboth

/-- Samples that are computed and appended block by block are one append. -/
theorem overBlocks_appendSpool {block total offset : ℕ} (hblock : 0 < block) (value : ℕ → α)
    (spool : RawSampleSpool size α) (message : String) (hoffset : offset ≤ total) :
    overBlocks block total
        (fun first count spool => appendSpool spool ((List.range' first count).map value) message)
        offset spool =
      appendSpool spool ((List.range' offset (total - offset)).map value) message := by
  induction hd : total - offset using Nat.strongRecOn generalizing offset spool with
  | ind d ih =>
    subst hd
    rw [overBlocks]
    by_cases hmore : offset < total ∧ 0 < block
    · have hsplit : List.range' offset (total - offset) =
          List.range' offset (min block (total - offset)) ++
            List.range' (offset + min block (total - offset))
              (total - (offset + min block (total - offset))) := by
        have hcount : total - offset = min block (total - offset) +
            (total - (offset + min block (total - offset))) := by omega
        conv_lhs => rw [hcount, ← List.range'_append, Nat.one_mul]
      rw [dif_pos hmore, hsplit, List.map_append, appendSpool_append]
      exact congrArg (_ >>= ·) (funext fun t => ih _ (by omega) t (by omega) rfl)
    · have hzero : total - offset = 0 := by omega
      rw [dif_neg hmore, hzero]
      exact (appendSpool_eq_ok.2 (RawSampleSpool.append_nil spool)).symm

/-- An append that fits fails for a sample that is not finite only. -/
theorem outcome_appendSpool (spool : RawSampleSpool size α) (xs : List α) (message : String)
    (h : (spool.samples.length + xs.length) * size ≤ offMax) :
    Outcome (fun t : RawSampleSpool size α => t.samples = spool.samples ++ xs)
      (fun _ => ∃ x ∈ xs, Sample.isFinite x = false) (appendSpool spool xs message) := by
  by_cases hfinite : ∀ x ∈ xs, Sample.isFinite x = true
  · obtain ⟨t, ht, hsamples⟩ := RawSampleSpool.append_of_finite spool xs hfinite h
    rw [appendSpool_eq_ok.2 ht]
    exact hsamples
  · obtain ⟨x, hx, hnot⟩ : ∃ x ∈ xs, Sample.isFinite x = false := by
      by_contra hall
      exact hfinite fun x hx => Bool.eq_true_of_not_eq_false fun hnot => hall ⟨x, hx, hnot⟩
    cases happend : appendSpool spool xs message with
    | ok t => exact RawSampleSpool.append_eq_some_iff.1 (appendSpool_eq_ok.1 happend)
    | error message => exact ⟨x, hx, hnot⟩

/-- Filling that fits fails for a value that is not finite only. -/
theorem outcome_appendRepeated (spool : RawSampleSpool size α) (value : α) (count : ℕ)
    (h : (spool.samples.length + count) * size ≤ offMax) :
    Outcome (fun t : RawSampleSpool size α => t.samples = spool.samples ++ List.replicate count value)
      (fun _ => Sample.isFinite value = false) (appendRepeated spool value count) := by
  cases happend : appendRepeated spool value count with
  | ok t => exact RawSampleSpool.append_eq_some_iff.1 (appendRepeated_eq_ok.1 happend)
  | error message =>
    refine Bool.eq_false_of_not_eq_true fun hfinite => ?_
    obtain ⟨t, ht, -⟩ := RawSampleSpool.append_of_finite spool (List.replicate count value)
      (fun x hx => (List.eq_of_mem_replicate hx).symm ▸ hfinite)
      (by rw [List.length_replicate]; exact h)
    rw [appendRepeated_eq_ok.2 ht] at happend
    cases happend

/-- A spool that holds the start of another one takes the samples that follow. -/
theorem exists_appendSpool_slice {target spool : RawSampleSpool size α} {offset count : ℕ}
    (message : String) (hspool : spool.samples = slice target.samples 0 offset)
    (h : offset + count ≤ target.samples.length) :
    ∃ t, appendSpool spool (slice target.samples offset (offset + count)) message = .ok t ∧
      t.samples = slice target.samples 0 (offset + count) := by
  have hbounded := target.bounded
  have hlength : spool.samples.length + (slice target.samples offset (offset + count)).length =
      offset + count := by
    rw [hspool, length_slice (by omega), length_slice h]
    omega
  obtain ⟨t, happend, hsamples⟩ := RawSampleSpool.append_of_finite spool
    (slice target.samples offset (offset + count))
    (fun x hx => target.finite x (mem_of_mem_slice hx))
    (by
      rw [hlength]
      exact (Nat.mul_le_mul_right _ h).trans hbounded)
  refine ⟨t, appendSpool_eq_ok.2 happend, ?_⟩
  rw [hsamples, hspool, slice_append_slice _ (by omega) (by omega)]

/-- The copy of a spool. -/
theorem exists_copySpool (hsize : 0 < size) (source : RawSampleSpool size α) :
    ∃ t, copySpool source .create = .ok t ∧ t.samples = source.samples := by
  have hloop : Outcome
      (fun t : RawSampleSpool size α =>
        t.samples = slice source.samples 0 source.samples.length) (fun _ => False)
      (overBlocks kIoBlockSamples source.sampleCount
        (fun offset count destination => do
          let block ← readSpool source offset count "bounded spool copy failed"
          appendSpool destination block "bounded spool copy failed") 0 .create) := by
    refine overBlocks_outcome (fun offset (t : RawSampleSpool size α) =>
      t.samples = slice source.samples 0 offset) (by decide) ?_ (Nat.zero_le _) (slice_self _ _).symm
    intro offset count destination _ _ hle hdestination
    rw [readSpool_of_le _ hsize hle]
    obtain ⟨t, happend, hsamples⟩ :=
      exists_appendSpool_slice "bounded spool copy failed" hdestination hle
    change Outcome _ _ (appendSpool destination _ _)
    rw [happend]
    exact hsamples
  obtain ⟨t, ht, hsamples⟩ := exists_of_outcome hloop
  rw [slice_zero_length] at hsamples
  refine ⟨t, ?_, hsamples⟩
  rw [copySpool, ht]
  change (require (t.sampleCount = source.sampleCount) _ >>= fun _ => _) = _
  rw [require, if_pos (by rw [RawSampleSpool.sampleCount, hsamples]; rfl)]
  rfl

end Resonantia.Pipeline
