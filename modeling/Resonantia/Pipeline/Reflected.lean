import Resonantia.Io.RawSampleSpool

/-!
# Reading the reflected signal block by block

The legacy pipeline pads a clip by reflection at both ends (`reflect_pad`) before it works on it.
The bounded pipeline never builds the padded clip: `read_reflected` assembles any range of it from
at most three ranges of the source spool, the outer two read backwards. Here the two are shown to
agree: every range inside the padded signal is read without error and is the slice of `reflect_pad`.

## Main definitions

* `Pipeline.reflectPad`: `reflect_pad`.
* `Pipeline.readReflected`: `read_reflected`.

## Main results

* `Pipeline.getElem?_reflectPad`: the padded signal position by position.
* `Pipeline.readReflected_eq_slice`: `read_reflected` returns the slice of `reflect_pad`.
-/

namespace Resonantia.Pipeline

open Slices Io

variable {α : Type*} [Inhabited α]

/-! ### The padded signal -/

/-- `reflect_pad`. -/
def reflectPad (x : List α) (pad : ℕ) : List α :=
  if x.length < 2 ∨ pad = 0 then x
  else
    let pad := min pad (x.length - 1)
    (List.range pad).map (fun i => x[pad - i]!) ++ x ++
      (List.range pad).map fun i => x[x.length - 2 - i]!

theorem getElem!_eq_getElem? {x : List α} {i : ℕ} (h : i < x.length) : some x[i]! = x[i]? := by
  rw [getElem!_pos x i h, List.getElem?_eq_getElem h]

/-- The position of the source that position `i` of the padded signal repeats. -/
def reflectIndex (n pad i : ℕ) : ℕ :=
  if i < pad then pad - i else if i < pad + n then i - pad else n - 2 - (i - (pad + n))

theorem length_reflectPad {x : List α} {pad : ℕ} (hn : 2 ≤ x.length) (hpad : pad < x.length) :
    (reflectPad x pad).length = x.length + 2 * pad := by
  rw [reflectPad]
  split
  · omega
  · have hmin : min pad (x.length - 1) = pad := by omega
    simp only [hmin, List.length_append, List.length_map, List.length_range]
    omega

/-- The padded signal position by position. -/
theorem getElem?_reflectPad {x : List α} {pad i : ℕ} (hn : 2 ≤ x.length) (hpad : pad < x.length)
    (hi : i < x.length + 2 * pad) :
    (reflectPad x pad)[i]? = x[reflectIndex x.length pad i]? := by
  rw [reflectPad, reflectIndex]
  split
  · have hzero : pad = 0 := by omega
    subst hzero
    rw [if_neg (by omega), if_pos (by omega), Nat.sub_zero]
  · have hmin : min pad (x.length - 1) = pad := by omega
    simp only [hmin]
    by_cases hleft : i < pad
    · rw [if_pos hleft, List.append_assoc, List.getElem?_append_left (by simpa using hleft),
        List.getElem?_map, List.getElem?_range hleft, Option.map_some]
      exact getElem!_eq_getElem? (by omega)
    · rw [if_neg hleft, List.append_assoc, List.getElem?_append_right (by simpa using hleft),
        List.length_map, List.length_range]
      by_cases hmid : i < pad + x.length
      · rw [if_pos hmid, List.getElem?_append_left (by omega)]
      · rw [if_neg hmid, List.getElem?_append_right (by omega), List.getElem?_map,
          List.getElem?_range (by omega), Option.map_some]
        have hoff : i - pad - x.length = i - (pad + x.length) := by omega
        rw [hoff]
        exact getElem!_eq_getElem? (by omega)

/-! ### The block reader -/

variable [Sample α]

/-- `append_reversed_source`: the range `[first, first + count)` of the source, backwards. -/
def appendReversedSource (source : RawFloatSpool α) (first count : ℕ) : Except String (List α) :=
  match source.read first count with
  | none => .error "reflected-audio spool read failed"
  | some block => .ok block.reverse

/-- The loop of `read_reflected`: `cursor` walks through the left reflection, the source and the
right reflection up to `endVirtual`. -/
def readReflectedLoop (source : RawFloatSpool α) (sourceSamples pad endVirtual cursor : ℕ) :
    Except String (List α) :=
  let middleEnd := pad + sourceSamples
  if _hcursor : cursor < endVirtual then
    if _hleft : cursor < pad then
      let regionEnd := min endVirtual pad
      match narrowSize (regionEnd - cursor) with
      | none => .error "reflected-audio range exceeds host size"
      | some regionSize => do
        let block ← appendReversedSource source (pad - (regionEnd - 1)) regionSize
        let rest ← readReflectedLoop source sourceSamples pad endVirtual regionEnd
        return block ++ rest
    else if _hmid : cursor < middleEnd then
      let regionEnd := min endVirtual middleEnd
      match narrowSize (regionEnd - cursor) with
      | none => .error "reflected-audio range exceeds host size"
      | some regionSize =>
        match source.read (cursor - pad) regionSize with
        | none => .error "reflected-audio source read failed"
        | some block => do
          let rest ← readReflectedLoop source sourceSamples pad endVirtual regionEnd
          return block ++ rest
    else
      let regionCount := endVirtual - cursor
      match narrowSize regionCount with
      | none => .error "reflected-audio range exceeds host size"
      | some regionSize =>
        let rightOffset := cursor - middleEnd
        appendReversedSource source (sourceSamples - 2 - (rightOffset + regionCount - 1)) regionSize
  else .ok []
termination_by endVirtual - cursor

/-- `read_reflected`: the samples `[firstVirtual, firstVirtual + count)` of the padded signal. -/
def readReflected (source : RawFloatSpool α) (sourceSamples pad firstVirtual count : ℕ) :
    Except String (List α) :=
  if sourceSamples < 2 ∨ pad ≥ sourceSamples then .error "invalid reflected-audio range"
  else match checkedAdd sourceSamples (u64 (2 * pad)), checkedAdd firstVirtual count with
    | some virtualSamples, some endVirtual =>
      if endVirtual > virtualSamples then .error "invalid reflected-audio range"
      else do
        let output ← readReflectedLoop source sourceSamples pad endVirtual firstVirtual
        if output.length = count then return output
        else .error "reflected-audio length mismatch"
    | _, _ => .error "invalid reflected-audio range"

/-- A backward read of the source is the slice of the padded signal that it stands for. -/
theorem appendReversedSource_eq_slice {source : RawFloatSpool α} {pad a b : ℕ}
    (hn : 2 ≤ source.samples.length) (hpad : pad < source.samples.length) {first : ℕ}
    (hab : a < b) (hb : b ≤ source.samples.length + 2 * pad)
    (hfirst : first + (b - a) ≤ source.samples.length)
    (hindex : ∀ i, a ≤ i → i < b →
      reflectIndex source.samples.length pad i = first + (b - a) - 1 - (i - a)) :
    appendReversedSource source first (b - a) = .ok (slice (reflectPad source.samples pad) a b) := by
  rw [appendReversedSource, RawSampleSpool.read_of_le hfirst]
  refine congrArg Except.ok (eq_slice_of_getElem? ?_ ?_)
  · rw [List.length_reverse, length_slice hfirst]
    omega
  · intro i hi
    rw [getElem?_reverse_slice hfirst (by omega), getElem?_reflectPad hn hpad (by omega),
      hindex (a + i) (by omega) hi]
    congr 1
    omega

omit [Sample α] in
/-- A forward read of the source is the slice of the padded signal behind the left reflection. -/
theorem slice_eq_slice_reflectPad {x : List α} {pad a b : ℕ} (hn : 2 ≤ x.length)
    (hpad : pad < x.length) (ha : pad ≤ a) (hb : b ≤ pad + x.length) :
    slice x (a - pad) (a - pad + (b - a)) = slice (reflectPad x pad) a b := by
  refine eq_slice_of_getElem? ?_ ?_
  · by_cases hab : a ≤ b
    · rw [length_slice (by omega)]
      omega
    · rw [slice_eq_nil_of_le _ (by omega), List.length_nil]
      omega
  · intro i hi
    rw [getElem?_slice, if_pos (by omega), getElem?_reflectPad hn hpad (by omega),
      reflectIndex, if_neg (by omega), if_pos (by omega)]
    congr 1
    omega

/-- From any cursor inside the padded signal the loop reads the rest of the range. -/
theorem readReflectedLoop_eq_slice {source : RawFloatSpool α} {pad endVirtual : ℕ}
    (hn : 2 ≤ source.samples.length) (hpad : pad < source.samples.length)
    (hend : endVirtual ≤ source.samples.length + 2 * pad) (cursor : ℕ) :
    readReflectedLoop source source.samples.length pad endVirtual cursor =
      .ok (slice (reflectPad source.samples pad) cursor endVirtual) := by
  have hlen := source.length_le
  have hv := length_reflectPad hn hpad
  -- Every branch reads the slice up to `regionEnd` and leaves the rest to the next iteration.
  induction h : endVirtual - cursor using Nat.strongRecOn generalizing cursor with
  | ind d ih =>
    rw [readReflectedLoop]
    by_cases hcursor : cursor < endVirtual
    · rw [dif_pos hcursor]
      by_cases hleft : cursor < pad
      · rw [dif_pos hleft]
        have hregion : cursor < min endVirtual pad := by omega
        have hread : appendReversedSource source (pad - (min endVirtual pad - 1))
            (min endVirtual pad - cursor) =
              .ok (slice (reflectPad source.samples pad) cursor (min endVirtual pad)) := by
          refine appendReversedSource_eq_slice hn hpad hregion (by omega) (by omega) ?_
          intro i hi hi'
          rw [reflectIndex, if_pos (by omega)]
          omega
        have hrest := ih (endVirtual - min endVirtual pad) (by omega) (min endVirtual pad) rfl
        simp only [narrowSize_of_lt (show min endVirtual pad - cursor < 2 ^ 64 by omega)]
        rw [hread, hrest]
        exact congrArg Except.ok (slice_append_slice _ (by omega) (by omega))
      · rw [dif_neg hleft]
        by_cases hmid : cursor < pad + source.samples.length
        · rw [dif_pos hmid]
          have hread : source.read (cursor - pad)
              (min endVirtual (pad + source.samples.length) - cursor) =
                some (slice (reflectPad source.samples pad) cursor
                  (min endVirtual (pad + source.samples.length))) := by
            rw [RawSampleSpool.read_of_le (by omega),
              slice_eq_slice_reflectPad hn hpad (by omega) (by omega)]
          have hrest := ih (endVirtual - min endVirtual (pad + source.samples.length)) (by omega)
            (min endVirtual (pad + source.samples.length)) rfl
          simp only [narrowSize_of_lt
            (show min endVirtual (pad + source.samples.length) - cursor < 2 ^ 64 by omega)]
          rw [hread]
          simp only
          rw [hrest]
          exact congrArg Except.ok (slice_append_slice _ (by omega) (by omega))
        · rw [dif_neg hmid]
          simp only [narrowSize_of_lt (show endVirtual - cursor < 2 ^ 64 by omega)]
          refine appendReversedSource_eq_slice hn hpad hcursor hend (by omega) ?_
          intro i hi hi'
          rw [reflectIndex, if_neg (by omega), if_neg (by omega)]
          omega
    · rw [dif_neg hcursor, slice_eq_nil_of_le _ (by omega)]

/-- **The block reader reads the padded signal.** Every range inside the padded signal is read
without error, and it is the slice of `reflect_pad` of the whole source. -/
theorem readReflected_eq_slice {source : RawFloatSpool α} {pad firstVirtual count : ℕ}
    (hn : 2 ≤ source.samples.length) (hpad : pad < source.samples.length)
    (hend : firstVirtual + count ≤ source.samples.length + 2 * pad) :
    readReflected source source.samples.length pad firstVirtual count =
      .ok (slice (reflectPad source.samples pad) firstVirtual (firstVirtual + count)) := by
  have hlen := source.length_le
  have hslice : (slice (reflectPad source.samples pad) firstVirtual
      (firstVirtual + count)).length = count := by
    rw [length_slice (by rw [length_reflectPad hn hpad]; exact hend)]
    omega
  rw [readReflected, if_neg (by omega), u64_of_lt (by omega), checkedAdd_of_lt (by omega),
    checkedAdd_of_lt (by omega)]
  simp only
  rw [if_neg (by omega), readReflectedLoop_eq_slice hn hpad hend]
  exact if_pos hslice

end Resonantia.Pipeline
