import Mathlib.Data.Int.Notation
import Resonantia.Library.BinaryFloat
import Resonantia.Library.Numeral

/-!
# Pitch edits

The local corrections of a pitch curve: their value range and their text form.

## Main definitions

* `F0.PitchEdit`: one correction on the input timeline.
* `F0.validPitchEdits`: ordered, disjoint, of bounded length and shift.
* `F0.parsePitchEdits`: the text form, empty for no edits.

## Main results

* `F0.validPitchEdits_of_parse`: parsed edits are valid.
-/

namespace Resonantia.F0

open BinaryFloat Numeral

inductive PitchEditMode
  | smooth
  | shift
deriving DecidableEq, Repr

/-- Seconds on the input timeline; `stop` is the source's `end`. -/
structure PitchEdit where
  mode : PitchEditMode
  start : Double
  stop : Double
  semitones : Double
deriving DecidableEq

/-- A decimal literal of the source in double precision. -/
def literal (q : ℚ) : ℚ := binary64.nearestSigned q

/-- `0.02 - 1e-9`. -/
def shortestEdit : ℚ := binary64.nearestSigned (literal (1 / 50) - literal (1 / 10 ^ 9))

/-- `2 + 1e-9`. -/
def longestEdit : ℚ := binary64.nearestSigned (2 + literal (1 / 10 ^ 9))

/-- The check of one edit after the end of the previous one. -/
def PitchEdit.ValidAfter (previous : ℚ) (e : PitchEdit) : Prop :=
  ¬(e.start.value < 0 ∨ 600 < e.stop.value ∨ e.stop.sub e.start < shortestEdit ∨
    longestEdit < e.stop.sub e.start ∨ e.start.value ≤ previous ∨ 24 < e.semitones.magnitude ∨
    (e.mode = .smooth ∧ e.semitones.value ≠ 0))

instance (previous : ℚ) (e : PitchEdit) : Decidable (e.ValidAfter previous) := by
  unfold PitchEdit.ValidAfter
  infer_instance

/-- The loop of `valid_pitch_edits`. -/
def validFrom (previous : ℚ) : List PitchEdit → Bool
  | [] => true
  | e :: edits => if e.ValidAfter previous then validFrom e.stop.value edits else false

def validPitchEdits (edits : List PitchEdit) : Bool := edits.length ≤ 16 && validFrom (-1) edits

/-! ### Text form -/

/-- `std::from_chars` on a whole field: no white space, no plus sign, in range. -/
def fromChars (cs : List Char) : Option Double :=
  let negative := cs.head? = some '-'
  match scanNumeral decimalDigit 10 10 'e' (if negative then cs.tail else cs) with
  | some (q, []) =>
    match Finite.ofMagnitude negative q with
    | some x => if x.magnitude = 0 ∧ q ≠ 0 then none else some x
    | none => none
  | _ => none

/-- One row, `smooth:START:END` or `shift:START:END:SEMITONES`. -/
def parseRow (row : List Char) : Option PitchEdit :=
  match row.splitOn ':' with
  | [mode, start, stop] =>
    if mode = "smooth".toList then do
      let start ← fromChars start
      let stop ← fromChars stop
      let semitones ← Finite.ofMagnitude false 0
      return ⟨.smooth, start, stop, semitones⟩
    else none
  | [mode, start, stop, semitones] =>
    if mode = "shift".toList then do
      let semitones ← fromChars semitones
      let start ← fromChars start
      let stop ← fromChars stop
      return ⟨.shift, start, stop, semitones⟩
    else none
  | _ => none

/-- `parse_pitch_edits`. An empty row, after a trailing separator too, is no row. -/
def parsePitchEdits (text : String) : Option (List PitchEdit) :=
  if 2048 < text.utf8ByteSize then none
  else if text = "" then some []
  else
    match (text.toList.splitOn ';').mapM parseRow with
    | some parsed => if validPitchEdits parsed then some parsed else none
    | none => none

/-- **Parsed edits are valid.** -/
theorem validPitchEdits_of_parse {text : String} {edits : List PitchEdit}
    (h : parsePitchEdits text = some edits) : validPitchEdits edits = true := by
  rw [parsePitchEdits] at h
  split_ifs at h with hsize hempty
  · obtain rfl := Option.some.inj h
    rfl
  · split at h
    · split_ifs at h with hvalid
      obtain rfl := Option.some.inj h
      exact hvalid
    · cases h

end Resonantia.F0
