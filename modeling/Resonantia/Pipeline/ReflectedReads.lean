import Resonantia.Library.Triple
import Resonantia.Pipeline.Reflected

/-!
# What reading the reflected signal asks of the machine

`read_reflected` computes its source ranges with unsigned subtractions, so that a slip at one of the
two mirror axes would wrap around instead of failing. Here the function is written once more with
every unsigned index computation taken modulo `2 ^ 64` and with a record of all of them and of all
ranges of the source that it reads. On a range inside the padded signal no recorded computation
wraps, every recorded range lies inside the source, and the result is that of `readReflected`.

## Main definitions

* `Pipeline.Access`: one range read from the source, or one unsigned computation.
* `Pipeline.readReflectedRecorded`: `read_reflected` with its record.

## Main results

* `Pipeline.readReflectedRecorded_spec`: the slice of `reflect_pad`, with a record that stays in
  range.
* `Pipeline.readReflectedRecorded_eq`: the recorded function returns what `readReflected` returns.
-/

namespace Resonantia.Pipeline

open Slices Io Effect

/-- What `read_reflected` asks of the machine. -/
inductive Access where
  /-- The samples `[first, first + count)` of the source. -/
  | read (first count : ℕ)
  /-- An unsigned computation whose result over the integers is `exact`. -/
  | compute (exact : ℤ)

/-- A range inside a source of `sourceSamples` samples, or a computation that does not wrap. -/
def Access.InRange (sourceSamples : ℕ) : Access → Prop
  | .read first count => first + count ≤ sourceSamples
  | .compute exact => 0 ≤ exact ∧ exact < 2 ^ 64

/-- An operation that keeps a record. -/
abbrev Recorded (β : Type) := ExceptT String (StateM (List Access)) β

/-- An unsigned 64-bit computation. -/
def unsigned (exact : ℤ) : Recorded ℕ := do
  modify (· ++ [.compute exact])
  return (exact % 2 ^ 64).toNat

variable {α : Type} [Sample α]

/-- `source.read`. -/
def readSource (source : RawFloatSpool α) (first count : ℕ) (message : String) :
    Recorded (List α) := do
  modify (· ++ [.read first count])
  match source.read first count with
  | none => throw message
  | some block => return block

/-- `append_reversed_source`, on the output collected so far. -/
def appendReversedSourceRecorded (source : RawFloatSpool α) (first count : ℕ) (output : List α) :
    Recorded (List α) := do
  let block ← readSource source first count "reflected-audio spool read failed"
  return output ++ block.reverse

/-- The loop of `read_reflected`, on the output collected so far. -/
def readReflectedLoopRecorded (source : RawFloatSpool α)
    (sourceSamples pad middleEnd endVirtual cursor : ℕ) (output : List α) :
    Recorded (List α) := do
  if _hcursor : cursor < endVirtual then
    if _hleft : cursor < pad then
      let regionEnd := min endVirtual pad
      let regionCount ← unsigned (regionEnd - cursor)
      match narrowSize regionCount with
      | none => throw "reflected-audio range exceeds host size"
      | some regionSize =>
        let last ← unsigned (regionEnd - 1)
        let lowest ← unsigned (pad - last)
        let output ← appendReversedSourceRecorded source lowest regionSize output
        readReflectedLoopRecorded source sourceSamples pad middleEnd endVirtual regionEnd output
    else if _hmid : cursor < middleEnd then
      let regionEnd := min endVirtual middleEnd
      let regionCount ← unsigned (regionEnd - cursor)
      match narrowSize regionCount with
      | none => throw "reflected-audio range exceeds host size"
      | some regionSize =>
        let first ← unsigned (cursor - pad)
        let block ← readSource source first regionSize "reflected-audio source read failed"
        readReflectedLoopRecorded source sourceSamples pad middleEnd endVirtual regionEnd
          (output ++ block)
    else
      let regionEnd := endVirtual
      let regionCount ← unsigned (regionEnd - cursor)
      match narrowSize regionCount with
      | none => throw "reflected-audio range exceeds host size"
      | some regionSize =>
        let rightOffset ← unsigned (cursor - middleEnd)
        let reach ← unsigned (rightOffset + regionCount)
        let last ← unsigned (reach - 1)
        let beforeLast ← unsigned (sourceSamples - 2)
        let lowest ← unsigned (beforeLast - last)
        let output ← appendReversedSourceRecorded source lowest regionSize output
        readReflectedLoopRecorded source sourceSamples pad middleEnd endVirtual regionEnd output
  else return output
termination_by endVirtual - cursor
decreasing_by
  · exact Nat.sub_lt_sub_left _hcursor (lt_min _hcursor _hleft)
  · exact Nat.sub_lt_sub_left _hcursor (lt_min _hcursor _hmid)
  · exact Nat.sub_lt_sub_left _hcursor _hcursor

/-- `read_reflected`: the samples `[firstVirtual, firstVirtual + count)` of the padded signal. -/
def readReflectedRecorded (source : RawFloatSpool α) (sourceSamples pad firstVirtual count : ℕ) :
    Recorded (List α) := do
  if sourceSamples < 2 ∨ pad ≥ sourceSamples then throw "invalid reflected-audio range"
  let twicePad ← unsigned (2 * pad)
  match checkedAdd sourceSamples twicePad, checkedAdd firstVirtual count with
  | some virtualSamples, some endVirtual =>
    if endVirtual > virtualSamples then throw "invalid reflected-audio range"
    let middleEnd ← unsigned (pad + sourceSamples)
    let output ← readReflectedLoopRecorded source sourceSamples pad middleEnd endVirtual
      firstVirtual []
    if output.length = count then return output
    else throw "reflected-audio length mismatch"
  | _, _ => throw "invalid reflected-audio range"

/-! ### One operation at a time -/

/-- A record all of whose entries are in range for the source. -/
def InRange (source : RawFloatSpool α) (record : List Access) : Prop :=
  ∀ access ∈ record, access.InRange source.samples.length

theorem InRange.snoc {source : RawFloatSpool α} {record : List Access} {access : Access}
    (h : InRange source record) (ha : access.InRange source.samples.length) :
    InRange source (record ++ [access]) := by
  intro other hother
  rcases List.mem_append.mp hother with hold | hnew
  · exact h other hold
  · rw [List.mem_singleton.mp hnew]
    exact ha

theorem exec_unsigned (exact : ℤ) (record : List Access) :
    exec (unsigned exact) record =
      (.ok (exact % 2 ^ 64).toNat, record ++ [.compute exact]) := rfl

/-- A computation that stays in range returns its exact result. -/
theorem triple_unsigned (source : RawFloatSpool α) {exact : ℤ} {n : ℕ} (h : exact = n)
    (hn : n < 2 ^ 64) :
    Triple (InRange source) (unsigned exact)
      (fun m record => m = n ∧ InRange source record) fun _ _ => False := by
  intro record hrecord
  rw [exec_unsigned]
  subst h
  refine ⟨?_, hrecord.snoc ⟨by omega, by omega⟩⟩
  have hmod : (n : ℤ) % 2 ^ 64 = n := Int.emod_eq_of_lt (by omega) (by omega)
  rw [hmod, Int.toNat_natCast]

/-- The rule for a computation followed by the rest of the function. -/
theorem triple_unsigned_bind {source : RawFloatSpool α} {exact : ℤ} {β : Type}
    {f : ℕ → Recorded β} {Q : β → List Access → Prop} (n : ℕ) (h : exact = n) (hn : n < 2 ^ 64)
    (hf : Triple (InRange source) (f n) Q fun _ _ => False) :
    Triple (InRange source) (unsigned exact >>= f) Q fun _ _ => False := by
  refine triple_bind (triple_unsigned source h hn) fun m => ?_
  exact triple_of_fact fun hm => hm ▸ hf

/-- A read inside the source returns the slice. -/
theorem triple_readSource {source : RawFloatSpool α} {first count : ℕ} (message : String)
    (h : first + count ≤ source.samples.length) :
    Triple (InRange source) (readSource source first count message)
      (fun block record => block = slice source.samples first (first + count) ∧
        InRange source record) fun _ _ => False := by
  intro record hrecord
  have hexec : exec (readSource source first count message) record =
      (.ok (slice source.samples first (first + count)), record ++ [.read first count]) := by
    rw [readSource, RawSampleSpool.read_of_le h]
    rfl
  rw [hexec]
  exact ⟨rfl, hrecord.snoc h⟩

variable [Inhabited α]

/-- A backward read that stands for the slice `[a, b)` of the padded signal appends that slice. -/
theorem triple_appendReversed {source : RawFloatSpool α} {pad a b first : ℕ} {output : List α}
    (hread : appendReversedSource source first (b - a) =
      .ok (slice (reflectPad source.samples pad) a b)) :
    Triple (InRange source) (appendReversedSourceRecorded source first (b - a) output)
      (fun result record => result = output ++ slice (reflectPad source.samples pad) a b ∧
        InRange source record) fun _ _ => False := by
  rw [appendReversedSource] at hread
  split at hread
  · cases hread
  · rename_i block hblock
    have hslice := Except.ok.inj hread
    obtain ⟨hle, hvalue⟩ := RawSampleSpool.eq_of_read hblock
    refine triple_bind (triple_readSource _ hle) fun samples => ?_
    refine triple_of_fact fun hsamples => triple_pure fun record hrecord => ⟨?_, hrecord⟩
    rw [hsamples, ← hvalue, hslice]

/-! ### The loop and the function -/

/-- From any cursor inside the padded signal the loop appends the rest of the range. -/
theorem triple_readReflectedLoop {source : RawFloatSpool α} {pad endVirtual : ℕ}
    (hn : 2 ≤ source.samples.length) (hpad : pad < source.samples.length)
    (hend : endVirtual ≤ source.samples.length + 2 * pad) (cursor : ℕ) (output : List α) :
    Triple (InRange source)
      (readReflectedLoopRecorded source source.samples.length pad (pad + source.samples.length)
        endVirtual cursor output)
      (fun result record =>
        result = output ++ slice (reflectPad source.samples pad) cursor endVirtual ∧
          InRange source record) fun _ _ => False := by
  have hlen := source.length_le
  -- Every branch appends the slice up to `regionEnd` and leaves the rest to the next iteration.
  induction h : endVirtual - cursor using Nat.strongRecOn generalizing cursor output with
  | ind d ih =>
    have hrest (regionEnd : ℕ) (hregion : cursor < regionEnd) (hle : regionEnd ≤ endVirtual) :
        Triple (InRange source)
          (readReflectedLoopRecorded source source.samples.length pad (pad + source.samples.length)
            endVirtual regionEnd
            (output ++ slice (reflectPad source.samples pad) cursor regionEnd))
          (fun result record =>
            result = output ++ slice (reflectPad source.samples pad) cursor endVirtual ∧
              InRange source record) fun _ _ => False := by
      refine triple_conseq (ih (endVirtual - regionEnd) (by omega) regionEnd _ rfl)
        (fun _ hrecord => hrecord) (fun result record hpost => ?_) fun _ _ hfail => hfail
      refine ⟨?_, hpost.2⟩
      rw [hpost.1, List.append_assoc, slice_append_slice _ (by omega) hle]
    rw [readReflectedLoopRecorded]
    by_cases hcursor : cursor < endVirtual
    · rw [dif_pos hcursor]
      by_cases hleft : cursor < pad
      · rw [dif_pos hleft]
        have hregion : cursor < min endVirtual pad := by omega
        have hread : appendReversedSource source (pad - (min endVirtual pad - 1))
            (min endVirtual pad - cursor) =
              .ok (slice (reflectPad source.samples pad) cursor (min endVirtual pad)) := by
          refine appendReversedSource_eq_slice hn hpad hregion (by omega) (by omega) ?_
          intro i hi hi'
          rw [reflectIndex, if_pos (by omega)]
          omega
        refine triple_unsigned_bind (min endVirtual pad - cursor) (by omega) (by omega) ?_
        rw [narrowSize_of_lt (by omega)]
        refine triple_unsigned_bind (min endVirtual pad - 1) (by omega) (by omega) ?_
        refine triple_unsigned_bind (pad - (min endVirtual pad - 1)) (by omega) (by omega) ?_
        refine triple_bind (triple_appendReversed hread) fun block => ?_
        exact triple_of_fact fun hblock => hblock ▸ hrest _ hregion (by omega)
      · rw [dif_neg hleft]
        by_cases hmid : cursor < pad + source.samples.length
        · rw [dif_pos hmid]
          have hregion : cursor < min endVirtual (pad + source.samples.length) := by omega
          refine triple_unsigned_bind (min endVirtual (pad + source.samples.length) - cursor)
            (by omega) (by omega) ?_
          rw [narrowSize_of_lt (by omega)]
          refine triple_unsigned_bind (cursor - pad) (by omega) (by omega) ?_
          refine triple_bind (triple_readSource _ (by omega)) fun block => ?_
          refine triple_of_fact fun hblock => ?_
          rw [hblock, slice_eq_slice_reflectPad hn hpad (by omega) (by omega)]
          exact hrest _ hregion (by omega)
        · rw [dif_neg hmid]
          have hread : appendReversedSource source
              (source.samples.length - 2 -
                (cursor - (pad + source.samples.length) + (endVirtual - cursor) - 1))
              (endVirtual - cursor) =
                .ok (slice (reflectPad source.samples pad) cursor endVirtual) := by
            refine appendReversedSource_eq_slice hn hpad hcursor hend (by omega) ?_
            intro i hi hi'
            rw [reflectIndex, if_neg (by omega), if_neg (by omega)]
            omega
          refine triple_unsigned_bind (endVirtual - cursor) (by omega) (by omega) ?_
          rw [narrowSize_of_lt (by omega)]
          refine triple_unsigned_bind (cursor - (pad + source.samples.length)) (by omega)
            (by omega) ?_
          refine triple_unsigned_bind
            (cursor - (pad + source.samples.length) + (endVirtual - cursor)) (by omega)
            (by omega) ?_
          refine triple_unsigned_bind
            (cursor - (pad + source.samples.length) + (endVirtual - cursor) - 1) (by omega)
            (by omega) ?_
          refine triple_unsigned_bind (source.samples.length - 2) (by omega) (by omega) ?_
          refine triple_unsigned_bind (source.samples.length - 2 -
            (cursor - (pad + source.samples.length) + (endVirtual - cursor) - 1)) (by omega)
            (by omega) ?_
          refine triple_bind (triple_appendReversed hread) fun block => ?_
          exact triple_of_fact fun hblock => hblock ▸ hrest _ hcursor (Nat.le_refl _)
    · rw [dif_neg hcursor, slice_eq_nil_of_le _ (by omega), List.append_nil]
      exact triple_pure fun record hrecord => ⟨rfl, hrecord⟩

/-- Every range inside the padded signal is read, with a record that stays in range. -/
theorem triple_readReflected {source : RawFloatSpool α} {pad firstVirtual count : ℕ}
    (hn : 2 ≤ source.samples.length) (hpad : pad < source.samples.length)
    (hend : firstVirtual + count ≤ source.samples.length + 2 * pad) :
    Triple (InRange source)
      (readReflectedRecorded source source.samples.length pad firstVirtual count)
      (fun result record =>
        result = slice (reflectPad source.samples pad) firstVirtual (firstVirtual + count) ∧
          InRange source record) fun _ _ => False := by
  have hlen := source.length_le
  have hslice : (slice (reflectPad source.samples pad) firstVirtual
      (firstVirtual + count)).length = count := by
    rw [length_slice (by rw [length_reflectPad hn hpad]; exact hend)]
    omega
  rw [readReflectedRecorded, if_neg (by omega)]
  refine triple_unsigned_bind (2 * pad) (by omega) (by omega) ?_
  rw [checkedAdd_of_lt (by omega), checkedAdd_of_lt (by omega)]
  simp only
  rw [if_neg (by omega)]
  refine triple_unsigned_bind (pad + source.samples.length) (by omega) (by omega) ?_
  refine triple_bind (triple_readReflectedLoop hn hpad hend firstVirtual []) fun result => ?_
  refine triple_of_fact fun hresult => ?_
  rw [hresult, List.nil_append, if_pos hslice]
  exact triple_pure fun record hrecord => ⟨rfl, hrecord⟩

/-- Three samples. -/
def threeSamples : RawFloatSpool ℤ where
  samples := [10, 20, 30]
  finite := by decide
  bounded := by decide

/-- The recorded function returns what the function itself returns, also on ranges that it
refuses. -/
theorem readReflectedRecorded_eq (source : RawFloatSpool α) (pad firstVirtual count : ℕ) :
    (exec (readReflectedRecorded source source.samples.length pad firstVirtual count) []).1 =
      readReflected source source.samples.length pad firstVirtual count := by
  have hlen := source.length_le
  by_cases hpad : source.samples.length < 2 ∨ pad ≥ source.samples.length
  · rw [readReflectedRecorded, readReflected, if_pos hpad, if_pos hpad]
    rfl
  by_cases hend : firstVirtual + count ≤ source.samples.length + 2 * pad
  · rcases hrun : exec (readReflectedRecorded source source.samples.length pad firstVirtual count)
        [] with ⟨result, record⟩
    rcases triple_elim (triple_readReflected (by omega) (by omega) hend)
        (fun _ hnone => absurd hnone List.not_mem_nil) hrun with ⟨_, rfl, rfl, -⟩ | ⟨_, _, hfail⟩
    · rw [readReflected_eq_slice (by omega) (by omega) hend]
    · exact hfail.elim
  · have hexact : ((2 * (pad : ℤ)) % 2 ^ 64).toNat = 2 * pad := by omega
    rw [readReflectedRecorded, readReflected, if_neg hpad, if_neg hpad, u64_of_lt (by omega),
      exec_bind_of_ok (exec_unsigned _ _), hexact]
    rw [@checkedAdd_of_lt source.samples.length (2 * pad) (by omega)]
    cases hadd : checkedAdd firstVirtual count with
    | none => rfl
    | some endVirtual =>
      have hvalue := eq_add_of_checkedAdd hadd
      simp only
      rw [if_pos (by omega), if_pos (by omega)]
      rfl

end Resonantia.Pipeline
